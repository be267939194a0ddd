import TateFirmware.Cli.AutoComplete

/-!
# What is completed

The text that `cmd_auto_complete` puts behind the line should complete the last word
of it to the candidate, with a blank behind, or to what all candidates start with.
It does where the candidates start with that word.  Behind a blank there is no last
word, and the code takes the length of the word in front of the blank.
-/

namespace TateFirmware.Cli

open LibGeneric Support

/-- The last word of a line, empty behind a blank. -/
def lastWord (line : List UInt8) : List UInt8 :=
  if spaceBehind (line.getLastD 0) then [] else (words line).getLastD []

/-- What all candidates start with. -/
def commonPrefix (cmdv : List (List UInt8)) : List UInt8 :=
  (cmdv.headD []).take (findCommonPrefix cmdv)

theorem prefix_commonPrefix {xs : List UInt8} {cmdv : List (List UInt8)}
    (hne : cmdv ≠ []) : xs <+: commonPrefix cmdv ↔ ∀ c ∈ cmdv, xs <+: c := by
  obtain ⟨anchor, argv, rfl⟩ := List.exists_cons_of_ne_nil hne
  rw [commonPrefix, findCommonPrefix, List.headD_cons, prefix_take_sharedLength,
    List.take_length, List.forall_mem_cons]

theorem commonPrefix_length (cmdv : List (List UInt8)) :
    (commonPrefix cmdv).length = findCommonPrefix cmdv := by
  cases cmdv with
  | nil => rfl
  | cons anchor argv =>
      rw [commonPrefix, List.headD_cons]
      exact List.length_take_of_le (sharedLength_le _ _ _)

/-! ## The arguments -/

theorem makeArgv_eq_take (k : ℕ) (s : List UInt8) :
    makeArgv k s = (words s).take k := by
  induction k generalizing s with
  | zero => rw [makeArgv, List.take_zero]
  | succ k ih =>
      rw [makeArgv, ← words_dropWhile]
      dsimp only
      by_cases hnil : s.dropWhile isBlank = []
      · rw [if_pos hnil, hnil]
        rfl
      · rw [if_neg hnil]
        obtain ⟨arg, harg, hne, hword, ⟨hrest, hall⟩ | ⟨c, rest, hrest, hc, hall⟩⟩ :=
          line_cases s hnil
        · rw [harg, if_pos hrest, hall, words_word hne hword, List.take_succ_cons,
            List.take_nil]
        · rw [harg, hrest, if_neg (by simp), List.tail_cons, hall,
            words_cons hne hword hc, List.take_succ_cons, ih]

/-! ## The contract -/

/-- The text put behind the line completes the last word to the candidate and a
blank, or to something that all candidates start with, and the line fits the
buffer. -/
def AutoComplete.Completes (cbsize : ℕ) (line : List UInt8)
    (cmdv : List (List UInt8)) : AutoComplete → Prop
  | .overrun => False
  | .returned _ new _ _ =>
      new ≠ line → ∃ s, new = line ++ s ∧ new.length < cbsize ∧
        (cmdv.length = 1 → lastWord line ++ s = cmdv.headD [] ++ [ch ' ']) ∧
        (cmdv.length ≠ 1 → ∀ c ∈ cmdv, lastWord line ++ s <+: c)

/-- There is text to put behind a line of `n` characters whose last argument is
`arg`, and room for it. -/
def Inserts (cbsize n : ℕ) (arg : List UInt8) (cmdv : List (List UInt8)) : Prop :=
  cmdv.length = 1 ∧ ((cmdv.headD []).length < arg.length ∨
      n + ((cmdv.headD []).length - arg.length) + 1 < cbsize - 2) ∨
    1 < cmdv.length ∧ arg.length < (commonPrefix cmdv).length ∧
      n + ((commonPrefix cmdv).length - arg.length) < cbsize - 2

/-- In a line without a word the candidates have nothing in common.  Otherwise, if
there is text to insert, all candidates start with the last word or, behind a blank,
there are several and what they have in common goes on as it starts from the length
of the last argument on. -/
def Completable (cbsize : ℕ) (line : List UInt8) (cmdv : List (List UInt8)) : Prop :=
  match (words line).getLast? with
  | none => cmdv.length ≠ 1 ∧ (1 < cmdv.length → commonPrefix cmdv = [])
  | some arg =>
      Inserts cbsize line.length arg cmdv →
        if spaceBehind (line.getLastD 0) then
          1 < cmdv.length ∧ (commonPrefix cmdv).drop arg.length <+: commonPrefix cmdv
        else ∀ c ∈ cmdv, arg <+: c

/-! ## The candidates -/

theorem envNames_isSome (c : Completer) {vs : List Env.Var}
    (h : Env.WellFormed c.cfg c.env vs) (var : List UInt8) :
    ∃ cmdv, c.envNames var = some cmdv := by
  obtain ⟨found, buf, cmdv, hreturns, -⟩ :=
    Env.envComplete_lists c.cfg c.env vs h ⟨cstr var, zero_notMem_cstr var⟩ cmdvSize
      (by decide) c.cmdv tmpBufSize c.tmpBuf
  rw [Completer.envNames, hreturns]
  exact ⟨_, rfl⟩

theorem varComplete_isSome (c : Completer) {vs : List Env.Var}
    (h : Env.WellFormed c.cfg c.env vs) (argv : List (List UInt8)) (lastChar : UInt8) :
    ∃ cmdv, c.varComplete argv lastChar = some cmdv := by
  unfold Completer.varComplete
  split
  · exact envNames_isSome c h _
  · split
    · exact envNames_isSome c h _
    · exact ⟨_, rfl⟩

theorem completeCmdv_isSome (c : Completer) {vs : List Env.Var}
    (h : Env.WellFormed c.cfg c.env vs) (argv : List (List UInt8)) (lastChar : UInt8) :
    ∃ cmdv, c.completeCmdv argv lastChar = some cmdv := by
  cases argv with
  | nil => exact ⟨_, rfl⟩
  | cons cmd args =>
      rw [Completer.completeCmdv]
      split
      · split
        · exact ⟨_, rfl⟩
        · split
          · exact varComplete_isSome c h _ _
          · exact ⟨_, rfl⟩
      · exact ⟨_, rfl⟩

/-- Nothing is completed behind the second argument. -/
theorem completeCmdv_eq_nil (c : Completer) {argv : List (List UInt8)} {lastChar : UInt8}
    (hlen : 2 < argv.length) {cmdv : List (List UInt8)}
    (h : c.completeCmdv argv lastChar = some cmdv) : cmdv = [] := by
  obtain ⟨cmd, args, rfl⟩ := List.exists_cons_of_ne_nil
    (List.ne_nil_of_length_pos (Nat.zero_lt_of_lt hlen))
  have hargs : args ≠ [] := by
    rintro rfl
    simp at hlen
  have hnone : c.varComplete (cmd :: args) lastChar = some [] := by
    rw [Completer.varComplete, if_neg (by omega), if_neg (by omega)]
  rw [Completer.completeCmdv, if_pos (Or.inl hargs)] at h
  split at h
  · exact (Option.some.inj h).symm
  · split at h
    · rw [hnone] at h
      exact (Option.some.inj h).symm
    · exact (Option.some.inj h).symm

/-! ## Inserting -/

theorem lastWord_of_space {line : List UInt8} (h : spaceBehind (line.getLastD 0) = true) :
    lastWord line = [] :=
  if_pos h

theorem lastWord_of_word {line arg : List UInt8}
    (h : ¬ spaceBehind (line.getLastD 0) = true)
    (harg : (words line).getLast? = some arg) : lastWord line = arg := by
  rw [lastWord, if_neg h, List.getLastD_eq_getLast?, harg]
  rfl

/-- The words of a line are not empty. -/
theorem length_pos_of_word {line arg : List UInt8}
    (harg : (words line).getLast? = some arg) : 0 < arg.length := by
  have hmem := List.mem_of_getLast? harg
  rw [words, List.mem_filter] at hmem
  exact List.length_pos_iff.mpr (by simpa using hmem.2)

theorem append_drop_eq_iff {w c : List UInt8} : w ++ c.drop w.length = c ↔ w <+: c := by
  constructor
  · intro h
    exact ⟨_, h⟩
  · rintro ⟨rest, rfl⟩
    rw [List.drop_left]

theorem append_drop_prefix_iff {w cp : List UInt8} :
    w ++ cp.drop w.length <+: cp ↔ w <+: cp := by
  constructor
  · intro h
    exact (List.prefix_append _ _).trans h
  · intro h
    rw [append_drop_eq_iff.mpr h]

theorem insertText_of_full {cbsize n : ℕ} {line s sep : List UInt8} (col : ℕ)
    (hfull : ¬ n + (s.length + sep.length) < cbsize - 2) :
    insertText cbsize line n col s sep = .returned 1 line n col :=
  if_pos (not_lt.mp hfull)

/-- What is put behind the line. -/
theorem insertText_completes {cbsize : ℕ} {line s sep : List UInt8} {col : ℕ}
    {cmdv : List (List UInt8)} (hpos : 0 < s.length + sep.length)
    (hroom : line.length + (s.length + sep.length) < cbsize - 2) :
    (insertText cbsize line line.length col s sep).Completes cbsize line cmdv ↔
      (cmdv.length = 1 → lastWord line ++ (s ++ sep) = cmdv.headD [] ++ [ch ' ']) ∧
        (cmdv.length ≠ 1 → ∀ c ∈ cmdv, lastWord line ++ (s ++ sep) <+: c) := by
  have hne : line ++ s ++ sep ≠ line := by
    intro h
    have hlen := congrArg List.length h
    rw [List.length_append, List.length_append] at hlen
    omega
  rw [insertText, if_neg (not_le.mpr hroom)]
  constructor
  · intro h
    obtain ⟨s', heq, -, hall⟩ := h hne
    rw [List.append_assoc, List.append_cancel_left_eq] at heq
    rw [heq]
    exact hall
  · intro h _
    refine ⟨s ++ sep, List.append_assoc _ _ _, ?_, h⟩
    rw [List.length_append, List.length_append]
    omega

theorem completed_single_iff {line s cmdv0 : List UInt8} :
    (([cmdv0].length = 1 → lastWord line ++ (s ++ [ch ' ']) =
        [cmdv0].headD [] ++ [ch ' ']) ∧
      ([cmdv0].length ≠ 1 → ∀ c ∈ [cmdv0], lastWord line ++ (s ++ [ch ' ']) <+: c)) ↔
      lastWord line ++ s = cmdv0 := by
  rw [List.headD_cons, ← List.append_assoc, List.append_cancel_right_eq]
  exact ⟨fun h => h.1 rfl, fun h => ⟨fun _ => h, fun hne => absurd rfl hne⟩⟩

theorem completed_several_iff {line s : List UInt8} {cmdv : List (List UInt8)}
    (hlen : 1 < cmdv.length) :
    ((cmdv.length = 1 → lastWord line ++ (s ++ []) = cmdv.headD [] ++ [ch ' ']) ∧
      (cmdv.length ≠ 1 → ∀ c ∈ cmdv, lastWord line ++ (s ++ []) <+: c)) ↔
      lastWord line ++ s <+: commonPrefix cmdv := by
  rw [List.append_nil, prefix_commonPrefix (List.ne_nil_of_length_pos (by omega))]
  exact ⟨fun h => h.2 (by omega), fun h => ⟨fun hone => by omega, fun _ => h⟩⟩

/-! ## One candidate and several -/

section Cases

variable {c : Completer} {cfg : CliConfig} {prompt line : List UInt8} {col : ℕ}

/-- No candidate. -/
theorem completes_none
    (hcmdv : c.completeCmdv (makeArgv cfg.maxargs line) (line.getLastD 0) = some []) :
    (c.cmdAutoComplete cfg prompt prompt line line.length col).Completes cfg.cbsize line
      [] ↔ Completable cfg.cbsize line [] := by
  rw [Completer.cmdAutoComplete, if_neg (not_not.mpr rfl)]
  dsimp only
  rw [hcmdv, Completable]
  dsimp only
  refine iff_of_true ?_ ?_
  · split
    · exact fun h => absurd rfl h
    · exact fun h => absurd rfl h
  · split
    · exact ⟨Nat.zero_ne_one, fun _ => rfl⟩
    · rintro (⟨hlen, -⟩ | ⟨hlen, -⟩)
      · exact absurd hlen Nat.zero_ne_one
      · exact absurd hlen (Nat.not_lt_zero 1)

/-- A single candidate. -/
theorem completes_single {cmdv0 : List UInt8}
    (hargv : (makeArgv cfg.maxargs line).getLast? = (words line).getLast?)
    (hcmdv : c.completeCmdv (makeArgv cfg.maxargs line) (line.getLastD 0) =
      some [cmdv0]) :
    (c.cmdAutoComplete cfg prompt prompt line line.length col).Completes cfg.cbsize line
      [cmdv0] ↔ Completable cfg.cbsize line [cmdv0] := by
  rw [Completer.cmdAutoComplete, if_neg (not_not.mpr rfl)]
  dsimp only
  rw [hcmdv]
  dsimp only
  rw [hargv, Completable]
  cases harg : (words line).getLast? with
  | none => exact iff_of_false id (fun h => h.1 rfl)
  | some arg =>
      have hpos := length_pos_of_word harg
      dsimp only
      split
      · rename_i hshort
        refine iff_of_false id fun h => ?_
        have h := h (Or.inl ⟨rfl, Or.inl hshort⟩)
        split at h
        · exact absurd h.1 (lt_irrefl 1)
        · have hle := (h cmdv0 List.mem_cons_self).length_le
          omega
      · rename_i hlong
        have hinserted : 0 < (cmdv0.drop arg.length).length + [ch ' '].length :=
          Nat.succ_pos _
        by_cases hroom : line.length +
            ((cmdv0.drop arg.length).length + [ch ' '].length) < cfg.cbsize - 2
        · have hins : Inserts cfg.cbsize line.length arg [cmdv0] := by
            refine Or.inl ⟨rfl, Or.inr ?_⟩
            rw [List.length_drop, List.length_singleton] at hroom
            exact hroom
          rw [insertText_completes hinserted hroom, completed_single_iff]
          by_cases hspace : spaceBehind (line.getLastD 0) = true
          · rw [lastWord_of_space hspace, if_pos hspace, List.nil_append]
            refine iff_of_false (fun heq => ?_) (fun h => ?_)
            · have hlen := congrArg List.length heq
              rw [List.length_drop] at hlen
              omega
            · exact absurd (h hins).1 (lt_irrefl 1)
          · rw [lastWord_of_word hspace harg, if_neg hspace, append_drop_eq_iff]
            constructor
            · intro h _ c hc
              rw [List.mem_singleton.mp hc]
              exact h
            · intro h
              exact h hins cmdv0 List.mem_cons_self
        · rw [insertText_of_full col hroom]
          refine iff_of_true (fun h => absurd rfl h) ?_
          rintro (⟨-, hins | hins⟩ | ⟨hlen, -⟩)
          · exact absurd hins hlong
          · rw [List.length_drop, List.length_singleton] at hroom
            exact absurd hins hroom
          · exact absurd hlen (lt_irrefl 1)

/-- Several candidates. -/
theorem completes_several {cmdv0 cmdv1 : List UInt8} {cmdv : List (List UInt8)}
    (hargv : (makeArgv cfg.maxargs line).getLast? = (words line).getLast?)
    (hcmdv : c.completeCmdv (makeArgv cfg.maxargs line) (line.getLastD 0) =
      some (cmdv0 :: cmdv1 :: cmdv)) :
    (c.cmdAutoComplete cfg prompt prompt line line.length col).Completes cfg.cbsize line
      (cmdv0 :: cmdv1 :: cmdv) ↔
        Completable cfg.cbsize line (cmdv0 :: cmdv1 :: cmdv) := by
  have hlen : 1 < (cmdv0 :: cmdv1 :: cmdv).length := by simp
  have hcp := commonPrefix_length (cmdv0 :: cmdv1 :: cmdv)
  rw [Completer.cmdAutoComplete, if_neg (not_not.mpr rfl)]
  dsimp only
  rw [hcmdv]
  dsimp only
  rw [hargv, Completable]
  generalize hcands : cmdv0 :: cmdv1 :: cmdv = cands at *
  split
  · rename_i hne
    cases harg : (words line).getLast? with
    | none =>
        refine iff_of_false id fun h => hne ?_
        rw [← hcp, h.2 hlen]
        rfl
    | some arg =>
        have hpos := length_pos_of_word harg
        dsimp only
        split
        · rename_i hlong
          have htext : (cmdv0.drop arg.length).take
              (findCommonPrefix cands - arg.length) =
                (commonPrefix cands).drop arg.length := by
            rw [commonPrefix, ← hcands, List.headD_cons, List.drop_take]
          have hinserted : 0 < ((commonPrefix cands).drop arg.length).length +
              ([] : List UInt8).length := by
            rw [List.length_drop, List.length_nil]
            omega
          rw [htext]
          by_cases hroom : line.length + (((commonPrefix cands).drop arg.length).length +
              ([] : List UInt8).length) < cfg.cbsize - 2
          · have hins : Inserts cfg.cbsize line.length arg cands := by
              rw [List.length_drop, List.length_nil] at hroom
              exact Or.inr ⟨hlen, by omega, by omega⟩
            rw [insertText_completes hinserted hroom, completed_several_iff hlen]
            by_cases hspace : spaceBehind (line.getLastD 0) = true
            · rw [lastWord_of_space hspace, if_pos hspace, List.nil_append]
              exact ⟨fun h _ => ⟨hlen, h⟩, fun h => (h hins).2⟩
            · rw [lastWord_of_word hspace harg, if_neg hspace, append_drop_prefix_iff,
                prefix_commonPrefix (List.ne_nil_of_length_pos (by omega))]
              exact ⟨fun h _ => h, fun h => h hins⟩
          · rw [insertText_of_full col hroom]
            refine iff_of_true (fun h => absurd rfl h) ?_
            rw [List.length_drop, List.length_nil] at hroom
            rintro (⟨hsingle, -⟩ | ⟨-, -, hins⟩)
            · omega
            · omega
        · rename_i hshort
          refine iff_of_true (fun h => absurd rfl h) ?_
          rintro (⟨hsingle, -⟩ | ⟨-, hins, -⟩)
          · omega
          · omega
  · rename_i hzero
    refine iff_of_true (fun h => absurd rfl h) ?_
    have hnil : commonPrefix cands = [] := by
      apply List.eq_nil_of_length_eq_zero
      omega
    cases harg : (words line).getLast? with
    | none => exact ⟨by omega, fun _ => hnil⟩
    | some arg =>
        rintro (⟨hsingle, -⟩ | ⟨-, hins, -⟩)
        · omega
        · rw [hnil] at hins
          exact absurd hins (Nat.not_lt_zero _)

end Cases

/-- Where there are candidates, the last argument is the last word. -/
theorem getLast?_makeArgv (c : Completer) {cfg : CliConfig} (hargs : 2 < cfg.maxargs)
    {line : List UInt8} {cmdv : List (List UInt8)}
    (hcmdv : c.completeCmdv (makeArgv cfg.maxargs line) (line.getLastD 0) =
      some cmdv) (hne : cmdv ≠ []) :
    (makeArgv cfg.maxargs line).getLast? = (words line).getLast? := by
  have hlen : ¬ 2 < (makeArgv cfg.maxargs line).length :=
    fun h => hne (completeCmdv_eq_nil c h hcmdv)
  rw [makeArgv_eq_take, List.length_take] at hlen
  rw [makeArgv_eq_take, List.take_of_length_le]
  omega

/-- With room for three arguments or more, `cmd_auto_complete` on a line completes its
last word exactly if the candidates for the line can be completed. -/
theorem cmdAutoComplete_completes_iff (cfg : CliConfig) (hargs : 2 < cfg.maxargs)
    (c : Completer) (vs : List Env.Var)
    (henv : Env.WellFormed c.cfg c.env vs) (cfgPrompt prompt line : List UInt8)
    (col : ℕ) :
    ∃ cmdv, c.completeCmdv (makeArgv cfg.maxargs line) (line.getLastD 0) =
        some cmdv ∧
      ((c.cmdAutoComplete cfg cfgPrompt prompt line line.length col).Completes
          cfg.cbsize line cmdv ↔
        (prompt = cfgPrompt → Completable cfg.cbsize line cmdv)) := by
  obtain ⟨cmdv, hcmdv⟩ := completeCmdv_isSome c henv
    (makeArgv cfg.maxargs line) (line.getLastD 0)
  refine ⟨cmdv, hcmdv, ?_⟩
  by_cases hprompt : prompt = cfgPrompt
  · subst hprompt
    rw [imp_iff_right rfl]
    rcases cmdv with _ | ⟨cmdv0, _ | ⟨cmdv1, cmdv⟩⟩
    · exact completes_none hcmdv
    · exact completes_single (getLast?_makeArgv c hargs hcmdv (by simp)) hcmdv
    · exact completes_several (getLast?_makeArgv c hargs hcmdv (by simp)) hcmdv
  · refine iff_of_true ?_ (fun h => absurd h hprompt)
    rw [Completer.cmdAutoComplete, if_pos hprompt]
    exact fun h => absurd rfl h

/-! ## Command words without a dot -/

theorem listNames_of_le {names : List (List UInt8)} {nFound : ℕ}
    (h : nFound + names.length ≤ cmdvSize - 2) : listNames names nFound = names := by
  induction names generalizing nFound with
  | nil => rfl
  | cons name names ih =>
      rw [List.length_cons] at h
      rw [listNames, if_neg (by omega), ih (by omega)]

/-- The names that a command word without a dot lists, when there is room for them,
start with it. -/
theorem completable_of_command (c : Completer) {line cmd : List UInt8}
    (hwords : words line = [cmd]) (hend : ¬ spaceBehind (line.getLastD 0) = true)
    (hdot : ch '.' ∉ cmd)
    (hfew : (c.tbl.filter fun cmdtp => cmd.isPrefixOf cmdtp.name).length ≤
      cmdvSize - 2) {cmdv : List (List UInt8)}
    (hcmdv : c.completeCmdv [cmd] (line.getLastD 0) = some cmdv) (cbsize : ℕ) :
    Completable cbsize line cmdv := by
  have hbefore : beforeDot cmd = cmd := by
    rw [beforeDot, List.takeWhile_eq_self_iff]
    intro ch' hmem
    rw [decide_eq_true_eq]
    rintro rfl
    exact hdot hmem
  have hlen : wordLength cmd = cmd.length := by rw [wordLength, hbefore]
  have htest : ∀ name : List UInt8, (cmd.length ≤ name.length ∧
      cmd.take cmd.length = name.take cmd.length) ↔ cmd.isPrefixOf name = true := by
    intro name
    rw [List.isPrefixOf_iff_prefix, List.prefix_iff_eq_take, List.take_length]
    constructor
    · exact fun h => h.2
    · intro h
      refine ⟨?_, h⟩
      have hle := congrArg List.length h
      rw [List.length_take] at hle
      omega
  have hlist : cmdv = listNames ((c.tbl.map CmdTbl.name).filter
      fun name => cmd.isPrefixOf name) 0 := by
    rw [Completer.completeCmdv, if_neg (by simpa using hend), hlen] at hcmdv
    rw [← Option.some.inj hcmdv]
    congr 2
    funext name
    rw [Bool.eq_iff_iff, decide_eq_true_iff]
    exact htest name
  rw [listNames_of_le] at hlist
  · rw [Completable, hwords]
    intro _
    rw [if_neg hend]
    intro name hname
    rw [hlist, List.mem_filter, List.isPrefixOf_iff_prefix] at hname
    exact hname.2
  · rw [List.filter_map, List.length_map, Nat.zero_add]
    exact hfew

/-! ## A blank behind the command -/

/-- `CFG_CBSIZE` and `CFG_MAXARGS` of the board. -/
def consoleConfig : CliConfig := ⟨256, 16⟩

/-- The variable `bootdelay`. -/
def bootdelay : Env.Var where
  name := text "bootdelay"
  value := text "3"
  name_zero := by decide
  name_eq := by decide
  value_zero := by decide

/-- A board with the command `printenv` and the environment `bootdelay=3`. -/
def printenvCompleter : Completer where
  tbl := [⟨text "printenv", 16, true, false⟩]
  complete := fun _ => true
  cfg := ⟨128, false⟩
  env := Memory.ofList 0 (Env.strings [bootdelay] ++ [0])
  tmpBuf := fun _ => 0
  cmdv := fun _ => .null

theorem printenvCompleter_wellFormed :
    Env.WellFormed printenvCompleter.cfg printenvCompleter.env [bootdelay] :=
  ⟨⟨Memory.holds_ofList 0 _, by simp⟩, by decide⟩

theorem cmdAutoComplete_completes_iff_printenv :
    ∃ cmdv, printenvCompleter.completeCmdv
        (makeArgv consoleConfig.maxargs (text "printenv boot"))
          ((text "printenv boot").getLastD 0) = some cmdv ∧
      ((printenvCompleter.cmdAutoComplete consoleConfig (text "> ") (text "> ")
          (text "printenv boot") (text "printenv boot").length 0).Completes
            consoleConfig.cbsize (text "printenv boot") cmdv ↔
        (text "> " = text "> " →
          Completable consoleConfig.cbsize (text "printenv boot") cmdv)) :=
  cmdAutoComplete_completes_iff consoleConfig (by decide) printenvCompleter [bootdelay]
    printenvCompleter_wellFormed (text "> ") (text "> ") (text "printenv boot") 0

/-- Behind `printenv` and a blank, only the end of the name is inserted. -/
theorem printenvBlank_not_completed :
    ∃ cmdv, printenvCompleter.completeCmdv
        (makeArgv consoleConfig.maxargs (text "printenv "))
          ((text "printenv ").getLastD 0) = some cmdv ∧
      ¬ (printenvCompleter.cmdAutoComplete consoleConfig (text "> ") (text "> ")
          (text "printenv ") (text "printenv ").length 0).Completes
            consoleConfig.cbsize (text "printenv ") cmdv := by
  have hcmdv : printenvCompleter.completeCmdv
      (makeArgv consoleConfig.maxargs (text "printenv "))
        ((text "printenv ").getLastD 0) = some [text "bootdelay"] := by
    decide +kernel
  have hline : printenvCompleter.cmdAutoComplete consoleConfig (text "> ") (text "> ")
      (text "printenv ") (text "printenv ").length 0 =
        .returned 1 (text "printenv y ") 11 2 := by
    decide +kernel
  refine ⟨_, hcmdv, ?_⟩
  rw [hline]
  intro h
  obtain ⟨s, heq, -, hsingle, -⟩ := h (by decide)
  have hs : s = text "y " := by
    have hdrop := congrArg (List.drop (text "printenv ").length) heq
    rw [List.drop_left] at hdrop
    rw [← hdrop]
    decide
  have hword := hsingle rfl
  rw [hs] at hword
  revert hword
  decide

end TateFirmware.Cli
