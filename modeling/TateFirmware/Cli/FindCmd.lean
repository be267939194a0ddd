import TateFirmware.Cli.RunCommand
import TateFirmware.Env.Setenv

/-!
# Finding a command

`find_cmd` of `common/command.c` looks a word up in the command table.  A word
stands for the command of that name or, if there is none, for the only command whose
name it starts; the part behind a dot is a length modifier and does not count.
-/

namespace TateFirmware.Cli

open LibGeneric Support

/-- The word up to the first dot. -/
def beforeDot (cmd : List UInt8) : List UInt8 := cmd.takeWhile (· ≠ ch '.')

/-- `((p = strchr(cmd, '.')) == NULL) ? strlen(cmd) : (p - cmd)`. -/
def wordLength (cmd : List UInt8) : ℕ := (beforeDot cmd).length

/-- The loop of `find_cmd` over the rest of the table. -/
def findCmdLoop (cmd : List UInt8) (len : ℕ) :
    List CmdTbl → Option CmdTbl → ℕ → Option CmdTbl
  | [], cmdtpTemp, nFound => if nFound = 1 then cmdtpTemp else none
  | cmdtp :: tbl, cmdtpTemp, nFound =>
      if strncmp cmd cmdtp.name len = 0 then
        if len = cmdtp.name.length then some cmdtp
        else findCmdLoop cmd len tbl (some cmdtp) (nFound + 1)
      else findCmdLoop cmd len tbl cmdtpTemp nFound

/-- `find_cmd`, `none` for `NULL`. -/
def findCmd (tbl : List CmdTbl) (cmd : List UInt8) : Option CmdTbl :=
  findCmdLoop cmd (wordLength cmd) tbl tbl.head? 0

/-! ## Matches -/

theorem take_wordLength (cmd : List UInt8) :
    cmd.take (wordLength cmd) = beforeDot cmd := by
  have hpre : beforeDot cmd <+: cmd := List.takeWhile_prefix _
  exact (List.prefix_iff_eq_take.mp hpre).symm

/-- The test of the loop. -/
theorem strncmp_wordLength {cmd : List UInt8} (hcmd : (0 : UInt8) ∉ cmd)
    (name : List UInt8) :
    strncmp cmd name (wordLength cmd) = 0 ↔ beforeDot cmd <+: name := by
  have hle : wordLength cmd ≤ cmd.length :=
    (List.takeWhile_prefix _).length_le
  rw [strncmp_eq_zero_iff hcmd hle, take_wordLength]

theorem prefix_eq_iff {cmd name : List UInt8} (hpre : beforeDot cmd <+: name) :
    wordLength cmd = name.length ↔ name = beforeDot cmd := by
  constructor
  · intro hlen
    exact (hpre.eq_of_length hlen).symm
  · intro heq
    rw [heq, wordLength]

/-- The commands that a word abbreviates. -/
def abbreviates (cmd : List UInt8) (tbl : List CmdTbl) : List CmdTbl :=
  tbl.filter fun cmdtp => (beforeDot cmd).isPrefixOf cmdtp.name

theorem mem_abbreviates {cmd : List UInt8} {tbl : List CmdTbl} {cmdtp : CmdTbl} :
    cmdtp ∈ abbreviates cmd tbl ↔ cmdtp ∈ tbl ∧ beforeDot cmd <+: cmdtp.name := by
  rw [abbreviates, List.mem_filter, List.isPrefixOf_iff_prefix]

/-- Without a command of the name of the word, the last abbreviated command is kept
and they are counted. -/
theorem findCmdLoop_of_ne {cmd : List UInt8} (hcmd : (0 : UInt8) ∉ cmd)
    {tbl : List CmdTbl} (hne : ∀ cmdtp ∈ tbl, cmdtp.name ≠ beforeDot cmd)
    (cmdtpTemp : Option CmdTbl) (nFound : ℕ) :
    findCmdLoop cmd (wordLength cmd) tbl cmdtpTemp nFound =
      if nFound + (abbreviates cmd tbl).length = 1 then
        (abbreviates cmd tbl).getLast?.or cmdtpTemp
      else none := by
  induction tbl generalizing cmdtpTemp nFound with
  | nil => rfl
  | cons cmdtp tbl ih =>
      have hrest : ∀ d ∈ tbl, d.name ≠ beforeDot cmd :=
        fun d hd => hne d (List.mem_cons_of_mem _ hd)
      rw [findCmdLoop]
      by_cases hpre : beforeDot cmd <+: cmdtp.name
      · have hlen : ¬ wordLength cmd = cmdtp.name.length :=
          fun h => hne cmdtp List.mem_cons_self ((prefix_eq_iff hpre).mp h)
        have hcons : abbreviates cmd (cmdtp :: tbl) = cmdtp :: abbreviates cmd tbl :=
          List.filter_cons_of_pos (List.isPrefixOf_iff_prefix.mpr hpre)
        rw [if_pos ((strncmp_wordLength hcmd _).mpr hpre), if_neg hlen, ih hrest,
          hcons, List.length_cons, List.getLast?_cons]
        have hcount : nFound + 1 + (abbreviates cmd tbl).length =
            nFound + ((abbreviates cmd tbl).length + 1) := by omega
        rw [hcount]
        cases (abbreviates cmd tbl).getLast? with
        | none => rfl
        | some d => rfl
      · have hcons : abbreviates cmd (cmdtp :: tbl) = abbreviates cmd tbl :=
          List.filter_cons_of_neg fun h => hpre (List.isPrefixOf_iff_prefix.mp h)
        rw [if_neg fun h => hpre ((strncmp_wordLength hcmd _).mp h), ih hrest, hcons]

/-- The first command of the name of the word is found. -/
theorem findCmdLoop_of_mem {cmd : List UInt8} (hcmd : (0 : UInt8) ∉ cmd)
    {tbl : List CmdTbl} (hnames : (tbl.map CmdTbl.name).Nodup) {cmdtp : CmdTbl}
    (hmem : cmdtp ∈ tbl) (hname : cmdtp.name = beforeDot cmd)
    (cmdtpTemp : Option CmdTbl) (nFound : ℕ) :
    findCmdLoop cmd (wordLength cmd) tbl cmdtpTemp nFound = some cmdtp := by
  induction tbl generalizing cmdtpTemp nFound with
  | nil => cases hmem
  | cons d tbl ih =>
      rw [List.map_cons, List.nodup_cons] at hnames
      rw [findCmdLoop]
      rcases List.mem_cons.mp hmem with rfl | hmem
      · have hpre : beforeDot cmd <+: cmdtp.name := hname ▸ List.prefix_refl _
        rw [if_pos ((strncmp_wordLength hcmd _).mpr hpre),
          if_pos ((prefix_eq_iff hpre).mpr hname)]
      · have hrest := fun t n => ih hnames.2 hmem t n
        by_cases hpre : beforeDot cmd <+: d.name
        · have hlen : ¬ wordLength cmd = d.name.length := by
            intro h
            have hd := (prefix_eq_iff hpre).mp h
            exact hnames.1 (hd.trans hname.symm ▸ List.mem_map_of_mem hmem)
          rw [if_pos ((strncmp_wordLength hcmd _).mpr hpre), if_neg hlen]
          exact hrest _ _
        · rw [if_neg fun h => hpre ((strncmp_wordLength hcmd _).mp h)]
          exact hrest _ _

theorem nodup_of_names {tbl : List CmdTbl} (hnames : (tbl.map CmdTbl.name).Nodup)
    (cmd : List UInt8) : (abbreviates cmd tbl).Nodup :=
  (List.Nodup.of_map _ hnames).filter _

/-- A word that is not the name of a command finds the only command that it
abbreviates. -/
theorem findCmd_eq_some_iff {tbl : List CmdTbl}
    (hnames : (tbl.map CmdTbl.name).Nodup) {cmd : List UInt8}
    (hcmd : (0 : UInt8) ∉ cmd) (hne : ∀ cmdtp ∈ tbl, cmdtp.name ≠ beforeDot cmd)
    (cmdtp : CmdTbl) :
    findCmd tbl cmd = some cmdtp ↔
      cmdtp ∈ tbl ∧ beforeDot cmd <+: cmdtp.name ∧
        ∀ d ∈ tbl, beforeDot cmd <+: d.name → d = cmdtp := by
  have hnodup := nodup_of_names hnames cmd
  have hloop : findCmd tbl cmd = some cmdtp ↔ abbreviates cmd tbl = [cmdtp] := by
    rw [findCmd, findCmdLoop_of_ne hcmd hne, Nat.zero_add]
    constructor
    · intro h
      split at h
      · rename_i hlen
        obtain ⟨d, hd⟩ := List.length_eq_one_iff.mp hlen
        rw [hd] at h ⊢
        have heq : some d = some cmdtp := h
        rw [Option.some.inj heq]
      · cases h
    · intro h
      rw [h]
      rfl
  rw [hloop]
  constructor
  · intro h
    have hmem : ∀ d, d ∈ tbl ∧ beforeDot cmd <+: d.name ↔ d = cmdtp := by
      intro d
      rw [← mem_abbreviates, h, List.mem_singleton]
    obtain ⟨htbl, hpre⟩ := (hmem cmdtp).mpr rfl
    exact ⟨htbl, hpre, fun d hd hp => (hmem d).mp ⟨hd, hp⟩⟩
  · rintro ⟨hmem, hpre, honly⟩
    apply List.perm_singleton.mp
    rw [List.perm_ext_iff_of_nodup hnodup (List.nodup_singleton _)]
    intro d
    rw [mem_abbreviates, List.mem_singleton]
    constructor
    · rintro ⟨hd, hp⟩
      exact honly d hd hp
    · rintro rfl
      exact ⟨hmem, hpre⟩

/-- What a word stands for: the command of its name, or the only command it
abbreviates. -/
def Names (tbl : List CmdTbl) (cmd : List UInt8) (found : Option CmdTbl) : Prop :=
  (∀ cmdtp ∈ tbl, cmdtp.name = beforeDot cmd → found = some cmdtp) ∧
    ((∀ cmdtp ∈ tbl, cmdtp.name ≠ beforeDot cmd) →
      ∀ cmdtp, found = some cmdtp ↔
        cmdtp ∈ tbl ∧ beforeDot cmd <+: cmdtp.name ∧
          ∀ d ∈ tbl, beforeDot cmd <+: d.name → d = cmdtp)

theorem findCmd_names {tbl : List CmdTbl} (hnames : (tbl.map CmdTbl.name).Nodup)
    {cmd : List UInt8} (hcmd : (0 : UInt8) ∉ cmd) :
    Names tbl cmd (findCmd tbl cmd) := by
  constructor
  · intro cmdtp hmem hname
    exact findCmdLoop_of_mem hcmd hnames hmem hname _ _
  · intro hne cmdtp
    exact findCmd_eq_some_iff hnames hcmd hne cmdtp

/-- What a word stands for is determined by the commands, whatever their order. -/
theorem Names.unique {tbl tbl' : List CmdTbl} {cmd : List UInt8}
    {found found' : Option CmdTbl} (hmem : ∀ cmdtp, cmdtp ∈ tbl ↔ cmdtp ∈ tbl')
    (h : Names tbl cmd found) (h' : Names tbl' cmd found') : found = found' := by
  by_cases hexact : ∃ cmdtp ∈ tbl, cmdtp.name = beforeDot cmd
  · obtain ⟨cmdtp, htbl, hname⟩ := hexact
    rw [h.1 cmdtp htbl hname, h'.1 cmdtp ((hmem cmdtp).mp htbl) hname]
  · have hne : ∀ cmdtp ∈ tbl, cmdtp.name ≠ beforeDot cmd :=
      fun cmdtp htbl hname => hexact ⟨cmdtp, htbl, hname⟩
    have hne' : ∀ cmdtp ∈ tbl', cmdtp.name ≠ beforeDot cmd :=
      fun cmdtp htbl => hne cmdtp ((hmem cmdtp).mpr htbl)
    apply Option.ext
    intro cmdtp
    rw [h.2 hne cmdtp, h'.2 hne' cmdtp]
    simp only [hmem]

/-- `find_cmd` returns the command of the name of the word, or the only command that
it abbreviates, and the order of the table does not matter. -/
theorem findCmd_spec (tbl : List CmdTbl) (hnames : (tbl.map CmdTbl.name).Nodup)
    (cmd : Env.CStr) :
    Names tbl cmd.1 (findCmd tbl cmd.1) ∧
      ∀ tbl', tbl.Perm tbl' → findCmd tbl' cmd.1 = findCmd tbl cmd.1 := by
  refine ⟨findCmd_names hnames cmd.2, ?_⟩
  intro tbl' hperm
  have hnames' : (tbl'.map CmdTbl.name).Nodup :=
    (hperm.map CmdTbl.name).nodup_iff.mp hnames
  exact Names.unique (fun cmdtp => hperm.mem_iff.symm) (findCmd_names hnames' cmd.2)
    (findCmd_names hnames cmd.2)

/-- `cp` with a length modifier, in a table with `cpu` in front of it and behind. -/
theorem findCmd_spec_cp :
    findCmd [⟨text "cp", 5, true, false⟩, ⟨text "cpu", 2, true, false⟩] (text "cp.b") =
        some ⟨text "cp", 5, true, false⟩ ∧
      findCmd [⟨text "cpu", 2, true, false⟩, ⟨text "cp", 5, true, false⟩]
          (text "cp.b") =
        findCmd [⟨text "cp", 5, true, false⟩, ⟨text "cpu", 2, true, false⟩]
          (text "cp.b") := by
  have hspec := findCmd_spec
    [⟨text "cp", 5, true, false⟩, ⟨text "cpu", 2, true, false⟩] (by decide)
    ⟨text "cp.b", by decide⟩
  exact ⟨hspec.1.1 _ List.mem_cons_self (by decide), hspec.2 _ (List.Perm.swap ..)⟩

end TateFirmware.Cli
