import TateFirmware.Fastboot.Handler

/-!
# Which command a packet is

A command packet is compared with every command name.  The names of two
commands are never prefixes of one another where it matters, so a packet that
starts with one of them runs that command alone.  For properties of the state
the whole chain of comparisons is handled at once: what every command keeps,
`rx_handler` keeps.
-/

namespace TateFirmware.Fastboot

open Support LibGeneric

/-- A packet that starts with one name does not start with another one, if
neither name is a prefix of the other. -/
theorem not_startsWith {buf : List UInt8} {s t : String}
    (hbuf : startsWith buf s = true) (hst : ¬ text s <+: text t)
    (hts : ¬ text t <+: text s) : startsWith buf t = false := by
  rw [Bool.eq_false_iff]
  intro ht
  have hs' : text s <+: buf := List.isPrefixOf_iff_prefix.mp hbuf
  have ht' : text t <+: buf := List.isPrefixOf_iff_prefix.mp ht
  rcases List.prefix_or_prefix_of_prefix hs' ht' with h | h
  · exact hst h
  · exact hts h

/-! ## Packets that run one command -/

/-- The names `rx_handler` compares besides the download and the flash
commands. -/
def otherNames : List String :=
  ["continue", "reboot-bootloader", "reboot", "getvar:", "oem ", "erase:",
    "mmcerase:", "boot", "mmcwrite:"]

section Single

variable (iface : Interface) (board : Board) {cmdbuf : List UInt8} (st : State)

/-- A packet with none of the other names only reaches the download and the
flash commands. -/
theorem runCommands_of_not_other (f : Frame)
    (hother : ∀ t ∈ otherNames, startsWith cmdbuf t = false) :
    runCommands iface board cmdbuf f =
      ((downloadCommand iface cmdbuf f).andThen
        (flashCommand iface cmdbuf)).andThen
        (multiflashCommand iface cmdbuf) := by
  simp only [otherNames, List.forall_mem_cons] at hother
  obtain ⟨h1, h2, h3, h4, h5, h6, h7, h8, h9, -⟩ := hother
  simp only [runCommands, continueCommand, rebootCommand, getvarCommand,
    oemCommand, eraseCommand, mmceraseCommand, bootCommand, mmcwriteCommand,
    stateCommand, Flow.andThen, h1, h2, h3, h4, h5, h6, h7, h8, h9,
    Bool.false_eq_true, if_false]
  cases downloadCommand iface cmdbuf f <;> rfl

/-- What a packet that starts with `s` does not start with. -/
theorem startsWith_excludes {s : String} (names : List String)
    (hcmd : startsWith cmdbuf s = true)
    (hnames : ∀ t ∈ names, ¬ text s <+: text t ∧ ¬ text t <+: text s) :
    ∀ t ∈ names, startsWith cmdbuf t = false := fun t ht =>
  not_startsWith hcmd (hnames t ht).1 (hnames t ht).2

/-- The reply of a command that works on the state. -/
def stateReply (action : State → List UInt8 × State) (st : State) : Reply :=
  let r := action { st with fastbootConfirmed := true }
  ⟨r.2, [r.1], 0⟩

theorem rxCommand_download (hcmd : startsWith cmdbuf "download:" = true) :
    rxCommand iface board cmdbuf st =
      stateReply (download iface (cmdbuf.drop 9)) st := by
  have hother := startsWith_excludes otherNames hcmd (by decide)
  have hflash := startsWith_excludes ["flash:", "multiflash:"] hcmd
    (by decide)
  simp only [List.forall_mem_cons] at hflash
  simp [rxCommand, runCommands_of_not_other _ _ _ hother, downloadCommand,
    flashCommand, multiflashCommand, stateCommand, Flow.andThen, Flow.finish,
    Frame.txStatus, stateReply, hcmd, hflash.1, hflash.2.1]

theorem rxCommand_flash (hcmd : startsWith cmdbuf "flash:" = true) :
    rxCommand iface board cmdbuf st =
      stateReply (flash iface (cmdbuf.drop 6)) st := by
  have hother := startsWith_excludes otherNames hcmd (by decide)
  have hrest := startsWith_excludes ["download:", "multiflash:"]
    hcmd (by decide)
  simp only [List.forall_mem_cons] at hrest
  simp [rxCommand, runCommands_of_not_other _ _ _ hother, downloadCommand,
    flashCommand, multiflashCommand, stateCommand, Flow.andThen, Flow.finish,
    Frame.txStatus, stateReply, hcmd, hrest.1, hrest.2.1]

theorem rxCommand_multiflash (hcmd : startsWith cmdbuf "multiflash:" = true) :
    rxCommand iface board cmdbuf st =
      stateReply (multiflash iface (startsWith (cmdbuf.drop 11) "1")
        (cmdbuf.drop 13)) st := by
  have hother := startsWith_excludes otherNames hcmd (by decide)
  have hrest := startsWith_excludes ["download:", "flash:"]
    hcmd (by decide)
  simp only [List.forall_mem_cons] at hrest
  simp [rxCommand, runCommands_of_not_other _ _ _ hother, downloadCommand,
    flashCommand, multiflashCommand, stateCommand, Flow.andThen, Flow.finish,
    Frame.txStatus, stateReply, hcmd, hrest.1, hrest.2.1]

theorem rxCommand_erase (hcmd : startsWith cmdbuf "erase:" = true) :
    rxCommand iface board cmdbuf st =
      stateReply (erase iface (cmdbuf.drop 6)) st := by
  have hother := startsWith_excludes ["continue", "reboot-bootloader",
    "reboot", "getvar:", "oem ", "mmcerase:", "download:", "boot",
    "mmcwrite:", "flash:", "multiflash:"] hcmd (by decide)
  simp only [List.forall_mem_cons] at hother
  obtain ⟨hcontinue, hbootloader, hreboot, hgetvar, hoem, hmmcerase,
    hdownload, hboot, hmmcwrite, hflash, hmultiflash, -⟩ := hother
  simp [rxCommand, runCommands, continueCommand, rebootCommand, getvarCommand,
    oemCommand, eraseCommand, mmceraseCommand, downloadCommand, bootCommand,
    mmcwriteCommand, flashCommand, multiflashCommand, stateCommand,
    Flow.andThen, Flow.finish, Frame.txStatus, stateReply, hcmd, hcontinue,
    hbootloader, hreboot, hgetvar, hoem, hmmcerase, hdownload, hboot,
    hmmcwrite, hflash, hmultiflash]

end Single

/-- A packet is a command when no download is in progress. -/
theorem step_command {iface : Interface} {board : Board}
    {cmdbuf : List UInt8} {st : State} (hleft : st.left = false)
    (hidle : st.downloadSize = 0) :
    step iface st (.packet cmdbuf board) =
      ((rxCommand iface board cmdbuf st).st,
        (rxCommand iface board cmdbuf st).sent) := by
  simp [step, hleft, rxHandler, hidle]

/-! ## What all commands keep -/

/-- The state behind a command. -/
def Flow.st : Flow → State
  | .next f => f.st
  | .done f => f.st
  | .leave f => f.st

theorem Flow.andThen_keeps {P : State → Prop} {flow : Flow}
    {command : Frame → Flow} (hflow : P flow.st)
    (hcommand : ∀ f, P f.st → P (command f).st) :
    P (flow.andThen command).st := by
  cases flow with
  | next f => exact hcommand f hflow
  | done f => exact hflow
  | leave f => exact hflow

theorem stateCommand_keeps {P : State → Prop} {cmdbuf : List UInt8}
    {name : String} {handled : Bool} {action : State → List UInt8 × State}
    {f : Frame}
    (haction : startsWith cmdbuf name = true → ∀ st, P st → P (action st).2)
    (hf : P f.st) : P (stateCommand cmdbuf name handled action f).st := by
  unfold stateCommand
  split
  · rename_i hname
    exact haction hname f.st hf
  · exact hf

/-- A property of the state that every command of a packet keeps.  The
functions outside fastboot only work on the partition table and the MMC. -/
structure KeptByCommands (iface : Interface) (cmdbuf : List UInt8)
    (P : State → Prop) : Prop where
  outside : startsWith cmdbuf "oem " = true →
    ∀ st ptable mmc, P st → P { st with ptable := ptable, mmc := mmc }
  erase : startsWith cmdbuf "erase:" = true →
    ∀ st, P st → P (erase iface (cmdbuf.drop 6) st).2
  mmcerase : startsWith cmdbuf "mmcerase:" = true →
    ∀ st, P st → P (mmcerase (cmdbuf.drop 9) (cmdbuf.drop 11) st).2
  download : startsWith cmdbuf "download:" = true →
    ∀ st, P st → P (download iface (cmdbuf.drop 9) st).2
  mmcwrite : startsWith cmdbuf "mmcwrite:" = true →
    ∀ st, P st → P (mmcwrite (cmdbuf.drop 9) (cmdbuf.drop 11) st).2
  flash : startsWith cmdbuf "flash:" = true →
    ∀ st, P st → P (flash iface (cmdbuf.drop 6) st).2
  multiflash : startsWith cmdbuf "multiflash:" = true → ∀ st, P st →
    P (multiflash iface (startsWith (cmdbuf.drop 11) "1")
      (cmdbuf.drop 13) st).2

section Keeps

variable {iface : Interface} {board : Board} {cmdbuf : List UInt8}
  {P : State → Prop}

theorem callAway_st (returns : Bool) (f : Frame) (k : Frame → Flow) :
    (callAway returns f k).st = if returns then (k f).st else f.st := by
  cases returns <;> rfl

theorem continueCommand_st (f : Frame) :
    (continueCommand board cmdbuf f).st = f.st := by
  unfold continueCommand
  split
  · rw [callAway_st]
    split <;> rfl
  · rfl

theorem rebootCommand_st (f : Frame) :
    (rebootCommand cmdbuf f).st = f.st := by
  unfold rebootCommand
  split
  · rfl
  · split <;> rfl

theorem getvarCommand_st (f : Frame) :
    (getvarCommand iface cmdbuf f).st = f.st := by
  unfold getvarCommand
  split <;> rfl

theorem bootCommand_st (f : Frame) :
    (bootCommand board cmdbuf f).st = f.st := by
  unfold bootCommand
  split
  · dsimp only
    split
    · unfold callAway
      split <;> rfl
    · rfl
  · rfl

theorem oemCommand_keeps
    (houtside : startsWith cmdbuf "oem " = true → ∀ st ptable mmc, P st →
      P { st with ptable := ptable, mmc := mmc })
    (f : Frame) (hf : P f.st) : P (oemCommand board cmdbuf f).st := by
  unfold oemCommand
  split
  · rename_i hoem
    have houtside := houtside hoem
    apply Flow.andThen_keeps
    · split
      · rw [callAway_st]
        split <;> exact hf
      · exact hf
    · intro f hf
      split
      · exact houtside f.st f.st.ptable _ hf
      · split
        · exact houtside f.st _ _ hf
        · split <;> exact hf
  · exact hf

/-- What every command of a packet keeps, the command half of `rx_handler`
keeps. -/
theorem runCommands_keeps (hkept : KeptByCommands iface cmdbuf P)
    (f : Frame) (hf : P f.st) : P (runCommands iface board cmdbuf f).st := by
  unfold runCommands
  apply Flow.andThen_keeps ?_ fun f => stateCommand_keeps hkept.multiflash
  apply Flow.andThen_keeps ?_ fun f => stateCommand_keeps hkept.flash
  apply Flow.andThen_keeps ?_ fun f => stateCommand_keeps hkept.mmcwrite
  apply Flow.andThen_keeps ?_ fun f hf => (bootCommand_st f).symm ▸ hf
  apply Flow.andThen_keeps ?_ fun f => stateCommand_keeps hkept.download
  apply Flow.andThen_keeps ?_ fun f => stateCommand_keeps hkept.mmcerase
  apply Flow.andThen_keeps ?_ fun f => stateCommand_keeps hkept.erase
  apply Flow.andThen_keeps ?_ (oemCommand_keeps hkept.outside)
  apply Flow.andThen_keeps ?_ fun f hf => (getvarCommand_st f).symm ▸ hf
  apply Flow.andThen_keeps ?_ fun f hf => (rebootCommand_st f).symm ▸ hf
  rw [continueCommand_st]
  exact hf

theorem Flow.finish_st (flow : Flow) :
    flow.finish.st = flow.st ∨
      flow.finish.st = { flow.st with left := true } := by
  cases flow with
  | next f => exact Or.inl rfl
  | done f => exact Or.inl rfl
  | leave f => exact Or.inr rfl

theorem rxCommand_keeps (hkept : KeptByCommands iface cmdbuf P)
    (hconfirmed : ∀ st, P st → P { st with fastbootConfirmed := true })
    (hleft : ∀ st, P st → P { st with left := true })
    {st : State} (hst : P st) : P (rxCommand iface board cmdbuf st).st := by
  have hflow : P (runCommands iface board cmdbuf
      ⟨{ st with fastbootConfirmed := true }, text "FAIL", 1, []⟩).st :=
    runCommands_keeps hkept _ (hconfirmed st hst)
  unfold rxCommand
  rcases Flow.finish_st (runCommands iface board cmdbuf
    ⟨{ st with fastbootConfirmed := true }, text "FAIL", 1, []⟩) with h | h
  · rw [h]
    exact hflow
  · rw [h]
    exact hleft _ hflow

end Keeps

end TateFirmware.Fastboot
