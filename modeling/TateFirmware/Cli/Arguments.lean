import TateFirmware.Cli.RunCommand

/-!
# The arguments that commands are called with

A command is called with all its words and a `NULL` behind them, unless there are as
many words as `argv` has room for.  `parse_line` then drops the other words, or the
`NULL`, and its result is one that a command may allow.
-/

namespace TateFirmware.Cli

open LibGeneric Support

/-- A command that has been called has been given all words of its expansion, a
`NULL` behind them, and no more arguments than it allows and `argv` holds. -/
def Pass.CalledProperly (cfg : CliConfig) (pass : Pass) : Prop :=
  match pass.outcome with
  | .ran cmdtp argc argv _ _ =>
      AllWords pass.finaltoken argc argv ∧ argc ≤ min cfg.maxargs cmdtp.maxargs
  | _ => True

/-- All commands of a line are called properly. -/
def CallsProperly {σ : Type*} (cfg : CliConfig) (result : RunResult σ) : Prop :=
  match result with
  | .overrun => False
  | .returned _ st => ∀ pass ∈ st.log, pass.CalledProperly cfg

section Pass

variable {σ : Type*} (cfg : CliConfig) (board : Board σ)

/-- The first word is a command that may have `CFG_MAXARGS` arguments, and that is
not `bootd` called by itself. -/
def MayRunFull (text : List UInt8) (st : RunState σ) : Prop :=
  ∃ cmdtp, 0 < cfg.maxargs ∧ board.findCmd ((words text).headD []) = some cmdtp ∧
    cfg.maxargs ≤ cmdtp.maxargs ∧ ¬ (cmdtp.bootd = true ∧ st.bootd = true)

/-- The expansion of a command is shorter than `CFG_CBSIZE`, and its words fit into
`argv`: there are fewer than `CFG_MAXARGS`, or as many with no blank behind the last
one or a `NULL` in the last element before, or the command is not called. -/
def WordsFit (token : List UInt8) (st : RunState σ) : Prop :=
  (expand (board.getenv st.world) token).length < cfg.cbsize ∧
    ((words (expand (board.getenv st.world) token)).length < cfg.maxargs ∨
      (words (expand (board.getenv st.world) token)).length = cfg.maxargs ∧
        (EndsInWord (expand (board.getenv st.world) token) ∨
          st.argv cfg.maxargs = none) ∨
      ¬ MayRunFull cfg board (expand (board.getenv st.world) token) st)

variable {cfg board}

/-- What a pass adds to the log. -/
def PassResult.Adds (log : List Pass) (good : Pass → Prop) :
    PassResult σ → Prop
  | .overrun => False
  | .stopped st => ∃ pass, st.log = log ++ [pass] ∧ good pass
  | .next st => ∃ pass, st.log = log ++ [pass] ∧ good pass

theorem callCmd_adds (token text : List UInt8) (cmdtp : CmdTbl) (argc : ℕ)
    (st : RunState σ) {log : List Pass} (hlog : st.log = log) :
    (callCmd board token text cmdtp argc st).Adds log
        (Pass.CalledProperly cfg) ↔
      AllWords text argc st.argv ∧ argc ≤ min cfg.maxargs cmdtp.maxargs := by
  subst hlog
  unfold callCmd
  dsimp only
  split
  · constructor
    · rintro ⟨pass, hlog, hgood⟩
      rw [← List.singleton_inj.mp (List.append_cancel_left hlog)] at hgood
      exact hgood
    · exact fun hgood => ⟨_, rfl, hgood⟩
  · constructor
    · rintro ⟨pass, hlog, hgood⟩
      rw [← List.singleton_inj.mp (List.append_cancel_left hlog)] at hgood
      exact hgood
    · exact fun hgood => ⟨_, rfl, hgood⟩

theorem skip_adds {st : RunState σ} {pass : Pass} (hgood : pass.CalledProperly cfg) :
    (PassResult.next (st.skip pass)).Adds st.log (Pass.CalledProperly cfg) :=
  ⟨pass, rfl, hgood⟩

theorem parseLine_first {maxargs : ℕ} {text : List UInt8} {argv : Argv}
    (hpos : (parseLine maxargs text argv).1 ≠ 0) :
    ((parseLine maxargs text argv).2 0).getD [] = (words text).headD [] := by
  obtain ⟨hcount, hholds, -, -⟩ := parseLineLoop_spec maxargs text 0 argv
  unfold parseLine at hpos ⊢
  rw [hcount] at hpos
  cases hwords : words text with
  | nil =>
      rw [hwords] at hpos
      exact absurd (by simp) hpos
  | cons word rest =>
      rw [hwords] at hpos hholds
      obtain ⟨k, rfl⟩ := Nat.exists_eq_succ_of_ne_zero
        (show maxargs ≠ 0 by rintro rfl; simp at hpos)
      rw [List.take_succ_cons, List.map_cons] at hholds
      rw [(Memory.holds_cons.mp hholds).1]
      rfl

/-- A pass whose expansion fits calls its command properly exactly if the words
fit. -/
theorem runPass_adds_iff (token : List UInt8) (st : RunState σ) :
    (runPass cfg board token st).Adds st.log (Pass.CalledProperly cfg) ↔
      WordsFit cfg board token st := by
  unfold runPass WordsFit
  rw [macroLoop_expand]
  generalize expand (board.getenv st.world) token = text
  dsimp only
  by_cases hlong : cfg.cbsize ≤ text.length
  · rw [if_pos (by rw [List.length_take]; omega)]
    exact iff_of_false id fun h => absurd h.1 (not_lt.mpr hlong)
  · rw [List.take_of_length_le (by omega), if_neg hlong,
      and_iff_right (not_le.mp hlong)]
    have hall := parseLine_allWords_iff cfg.maxargs text st.argv
    have hfirst := @parseLine_first cfg.maxargs text st.argv
    have hcount := (parseLineLoop_spec cfg.maxargs text 0 st.argv).1
    rw [Nat.zero_add] at hcount
    change (parseLine cfg.maxargs text st.argv).1 = _ at hcount
    generalize parseLine cfg.maxargs text st.argv = parsed at *
    have hfew : parsed.1 < cfg.maxargs → (words text).length < cfg.maxargs := by
      omega
    unfold dispatch MayRunFull
    dsimp only
    by_cases hzero : parsed.1 = 0
    · rw [if_pos hzero]
      refine iff_of_true (skip_adds trivial) ?_
      by_cases hmax : 0 < cfg.maxargs
      · exact Or.inl (hfew (by omega))
      · exact Or.inr (Or.inr fun ⟨_, hpos, _⟩ => hmax hpos)
    · rw [if_neg hzero, hfirst hzero]
      cases hfind : board.findCmd ((words text).headD []) with
      | none =>
          exact iff_of_true (skip_adds trivial) (Or.inr (Or.inr
            fun ⟨_, _, hsome, _⟩ => by cases hsome))
      | some cmdtp =>
          dsimp only
          by_cases hmany : cmdtp.maxargs < parsed.1
          · rw [if_pos hmany]
            refine iff_of_true (skip_adds trivial) ?_
            refine Or.inr (Or.inr ?_)
            rintro ⟨_, _, hsome, hmax, _⟩
            obtain rfl := Option.some.inj hsome
            omega
          · rw [if_neg hmany]
            by_cases hbootd : cmdtp.bootd = true ∧ st.bootd = true
            · rw [if_pos hbootd]
              refine iff_of_true (skip_adds trivial) (Or.inr (Or.inr ?_))
              rintro ⟨_, _, hsome, _, hnot⟩
              obtain rfl := Option.some.inj hsome
              exact hnot hbootd
            · rw [if_neg hbootd]
              refine (callCmd_adds token text cmdtp parsed.1
                { st with argv := parsed.2 } rfl).trans ?_
              dsimp only
              rw [hall]
              constructor
              · rintro ⟨hless | hfull, -⟩
                · exact Or.inl hless
                · exact Or.inr (Or.inl hfull)
              · rintro (hless | hfull | hnot)
                · exact ⟨Or.inl hless, by omega⟩
                · exact ⟨Or.inr hfull, by omega⟩
                · refine ⟨Or.inl (hfew ?_), by omega⟩
                  by_contra hge
                  exact hnot ⟨cmdtp, by omega, rfl, by omega, hbootd⟩

/-! ## Whole lines -/

/-- The commands that a pass leaves behind were called properly if those before it
and its own were. -/
theorem runLoop_properly_iff (prev : UInt8) (str : List UInt8)
    (st : RunState σ) (hst : ∀ pass ∈ st.log, pass.CalledProperly cfg) :
    CallsProperly cfg (runLoop cfg board prev str st) ↔
      ∀ token st', Reached cfg board prev str st token st' →
        WordsFit cfg board token st' := by
  induction hn : str.length using Nat.strongRecOn
    generalizing prev str st with
  | ind n ih =>
      by_cases hne : str = []
      · subst hne
        rw [runLoop_nil]
        refine iff_of_true hst fun token st' hreached => ?_
        cases hreached with
        | first hne => exact absurd rfl hne
        | next hne => exact absurd rfl hne
      · have hpass := @runPass_adds_iff σ cfg board
          (findSep false prev true str).1 st
        have hlen := findSep_tail_length false prev true hne
        have hadds : ∀ {st' : RunState σ} {pass : Pass},
            st'.log = st.log ++ [pass] → pass.CalledProperly cfg →
              ∀ p ∈ st'.log, p.CalledProperly cfg := by
          intro st' pass hlog hgood p hp
          rw [hlog] at hp
          rcases List.mem_append.mp hp with hp | hp
          · exact hst p hp
          · exact List.mem_singleton.mp hp ▸ hgood
        have hsplit : (∀ token st', Reached cfg board prev str st token st' →
            WordsFit cfg board token st') ↔
              WordsFit cfg board (findSep false prev true str).1 st ∧
                ∀ st', runPass cfg board (findSep false prev true str).1 st =
                    .next st' → ∀ token st'',
                  Reached cfg board 0 (findSep false prev true str).2.tail st'
                    token st'' → WordsFit cfg board token st'' := by
          constructor
          · exact fun h => ⟨h _ _ (.first hne), fun st' hnext token st'' hreached =>
              h _ _ (.next hne hnext hreached)⟩
          · rintro ⟨hfirst, hrest⟩ token st' hreached
            cases hreached with
            | first => exact hfirst
            | next _ hnext hreached => exact hrest _ hnext _ _ hreached
        have hsteps := @runPass_steps σ cfg board
          (findSep false prev true str).1 st
        rw [hsplit, ← hpass, runLoop_of_ne cfg board hne]
        cases hresult : runPass cfg board (findSep false prev true str).1 st with
        | overrun => exact iff_of_false id fun h => h.1
        | stopped st' =>
            rw [hresult] at hsteps
            obtain ⟨pass, -, hstep, -⟩ := hsteps
            constructor
            · intro hall
              refine ⟨⟨pass, hstep.log, hall pass ?_⟩, fun st'' hnext => by
                cases hnext⟩
              rw [hstep.log]
              simp
            · rintro ⟨⟨pass, hlog, hgood⟩, -⟩
              exact hadds hlog hgood
        | next st' =>
            rw [hresult] at hsteps
            obtain ⟨pass, -, hstep, -⟩ := hsteps
            dsimp only
            constructor
            · intro hall
              have hgood : pass.CalledProperly cfg := by
                cases hrun : runLoop cfg board 0
                  (findSep false prev true str).2.tail st' with
                | overrun =>
                    rw [hrun] at hall
                    exact hall.elim
                | returned ret st'' =>
                    rw [hrun] at hall
                    refine hall pass ((runLoop_log hrun).subset ?_)
                    rw [hstep.log]
                    simp
              refine ⟨⟨pass, hstep.log, hgood⟩, fun st'' hnext => ?_⟩
              obtain rfl := PassResult.next.inj hnext
              exact (ih _ (hn ▸ hlen) 0 _ st' (hadds hstep.log hgood) rfl).mp hall
            · rintro ⟨⟨pass, hlog, hgood⟩, hrest⟩
              exact (ih _ (hn ▸ hlen) 0 _ st' (hadds hlog hgood) rfl).mpr
                (hrest st' rfl)

end Pass

/-- A line calls its commands properly exactly if it is rejected or the words fit in
every pass that it comes to. -/
theorem runCommand_properly_iff {σ : Type*} (cfg : CliConfig) (board : Board σ)
    (before : UInt8) (cmd : Option (List UInt8)) (bootd : Bool) (argv : Argv)
    (world : σ) :
    CallsProperly cfg (runCommand cfg board before cmd bootd argv world) ↔
      rejected cfg cmd ∨
        ∀ token st, Reached cfg board before (cmd.getD [])
            (initState board bootd argv world) token st →
          WordsFit cfg board token st := by
  unfold runCommand
  by_cases hrejected : rejected cfg cmd
  · rw [if_pos hrejected]
    exact iff_of_true (fun pass hpass => absurd hpass List.not_mem_nil)
      (Or.inl hrejected)
  · rw [if_neg hrejected, or_iff_right hrejected]
    exact runLoop_properly_iff before _ _
      fun pass hpass => absurd hpass List.not_mem_nil

/-- A command of seventeen words is called with sixteen of them. -/
theorem not_callsProperly :
    ¬ CallsProperly ⟨256, 16⟩ (runCommand ⟨256, 16⟩ echoBoard 0
      (some (text "echo 1 2 3 4 5 6 7 8 9 a b c d e f g")) false (fun _ => none)
      ()) := by
  have hrejected : ¬ rejected ⟨256, 16⟩
      (some (text "echo 1 2 3 4 5 6 7 8 9 a b c d e f g")) := by decide
  rw [runCommand, if_neg hrejected, runLoop_properly_iff _ _ _
    fun pass hpass => absurd hpass List.not_mem_nil]
  intro hfit
  have hcount : (words (expand (fun _ => none) (findSep false 0 true
      (text "echo 1 2 3 4 5 6 7 8 9 a b c d e f g")).1)).length = 17 := by
    decide +kernel
  obtain ⟨-, hless | ⟨heq, -⟩ | hnot⟩ := hfit _ _ (.first (by decide))
  · have hfew : (words (expand (fun _ => none) (findSep false 0 true
      (text "echo 1 2 3 4 5 6 7 8 9 a b c d e f g")).1)).length < 16 := hless
    omega
  · have hsixteen : (words (expand (fun _ => none) (findSep false 0 true
      (text "echo 1 2 3 4 5 6 7 8 9 a b c d e f g")).1)).length = 16 := heq
    omega
  · exact hnot ⟨_, by decide, rfl, le_rfl, by decide⟩

end TateFirmware.Cli
