import TateFirmware.Cli.RunCommand

/-!
# The commands of a line

`run_command` cuts a line at semicolons and runs the commands one behind the other
until a Ctrl-C is typed.  A semicolon at the start of a command does not separate:
it is the first character of that command.  What becomes of a command is told in
terms of its words, for lines whose commands fit into `finaltoken` and `argv`.
-/

namespace TateFirmware.Cli

open LibGeneric Support

/-! ## Separators -/

/-- A backslash is in front of character `i`. -/
def escapedAt (chars : List UInt8) : ℕ → Prop
  | 0 => False
  | i + 1 => chars[i]? = some (ch '\\')

instance (chars : List UInt8) (i : ℕ) : Decidable (escapedAt chars i) :=
  match i with
  | 0 => isFalse id
  | _ + 1 => inferInstanceAs (Decidable (_ = _))

/-- Character `i` is inside single quotes. -/
def quotedAt (chars : List UInt8) : ℕ → Bool
  | 0 => false
  | i + 1 =>
      if chars[i]? = some (ch '\'') ∧ ¬ escapedAt chars i then !quotedAt chars i
      else quotedAt chars i

/-- Character `i` is a semicolon with no backslash in front and not inside single
quotes. -/
def separatesAt (chars : List UInt8) (i : ℕ) : Bool :=
  chars[i]? = some (ch ';') ∧ ¬ escapedAt chars i ∧ quotedAt chars i = false

/-- Such a semicolon that is not the first character of a command. -/
def cutsAt (chars : List UInt8) : ℕ → Bool
  | 0 => false
  | i + 1 => separatesAt chars (i + 1) && !cutsAt chars i

/-- What is between the separators; `i` is the position of the first character. -/
def cutFrom (sep : ℕ → Bool) : ℕ → List UInt8 → List (List UInt8)
  | _, [] => [[]]
  | i, c :: rest =>
      if sep i then [] :: cutFrom sep (i + 1) rest
      else (cutFrom sep (i + 1) rest).modifyHead (c :: ·)

/-- A list of pieces without the last one if that is empty. -/
def dropEmpty (pieces : List (List UInt8)) : List (List UInt8) :=
  if pieces.getLast? = some [] then pieces.dropLast else pieces

/-- The commands between the separators; there is none behind a separator at the end
of the line. -/
def commands (sep : ℕ → Bool) (chars : List UInt8) : List (List UInt8) :=
  dropEmpty (cutFrom sep 0 chars)

/-! ## The commands in order -/

section Run

variable {σ : Type*} (cfg : CliConfig) (board : Board σ)

/-- Run commands one behind the other until a Ctrl-C. -/
def runAll : List (List UInt8) → RunState σ → RunResult σ
  | [], st => .returned st.ret st
  | token :: rest, st =>
      match runPass cfg board token st with
      | .overrun => .overrun
      | .stopped st => .returned 0 st
      | .next st => runAll rest st

/-- The commands that the loop finds. -/
def tokens (prev : UInt8) (str : List UInt8) : List (List UInt8) :=
  if _hne : str = [] then []
  else
    (findSep false prev true str).1 ::
      tokens 0 (findSep false prev true str).2.tail
termination_by str.length
decreasing_by exact findSep_tail_length _ _ _ _hne

theorem tokens_of_ne {prev : UInt8} {str : List UInt8} (hne : str ≠ []) :
    tokens prev str = (findSep false prev true str).1 ::
      tokens 0 (findSep false prev true str).2.tail := by
  rw [tokens, dif_neg hne]

theorem tokens_nil (prev : UInt8) : tokens prev [] = [] := by
  rw [tokens, dif_pos rfl]

theorem runLoop_tokens (prev : UInt8) (str : List UInt8) (st : RunState σ) :
    runLoop cfg board prev str st = runAll cfg board (tokens prev str) st := by
  induction hn : str.length using Nat.strongRecOn
    generalizing prev str st with
  | ind n ih =>
      by_cases hne : str = []
      · rw [hne, runLoop_nil, tokens_nil, runAll]
      · have hlen := findSep_tail_length false prev true hne
        rw [runLoop_of_ne cfg board hne, tokens_of_ne hne, runAll]
        cases runPass cfg board (findSep false prev true str).1 st with
        | overrun => rfl
        | stopped st' => rfl
        | next st' => exact ih _ (hn ▸ hlen) 0 _ st' rfl

end Run

/-! ## The loop cuts at the separators -/

/-- What is between the separators that the loop finds, character by character. -/
def splitFrom : Bool → UInt8 → Bool → List UInt8 → List (List UInt8)
  | _, _, _, [] => [[]]
  | inquotes, prev, start, c :: rest =>
      if quotesAfter inquotes prev c = false ∧ c = ch ';' ∧ start = false ∧
          prev ≠ ch '\\' then
        [] :: splitFrom false 0 true rest
      else
        (splitFrom (quotesAfter inquotes prev c) c false rest).modifyHead (c :: ·)

theorem splitFrom_findSep (inquotes : Bool) (prev : UInt8) (start : Bool)
    (str : List UInt8) : splitFrom inquotes prev start str =
      (findSep inquotes prev start str).1 ::
        if (findSep inquotes prev start str).2 = [] then []
        else splitFrom false 0 true (findSep inquotes prev start str).2.tail := by
  induction str generalizing inquotes prev start with
  | nil => rfl
  | cons c rest ih =>
      rw [splitFrom, findSep]
      dsimp only
      split
      · rfl
      · rw [ih, List.modifyHead_cons]

theorem dropEmpty_cons {piece : List UInt8} {pieces : List (List UInt8)}
    (hne : pieces ≠ []) : dropEmpty (piece :: pieces) =
      piece :: dropEmpty pieces := by
  obtain ⟨q, qs, rfl⟩ := List.exists_cons_of_ne_nil hne
  unfold dropEmpty
  rw [List.getLast?_cons_cons, List.dropLast_cons_of_ne_nil (by simp)]
  split
  · rfl
  · rfl

theorem splitFrom_ne_nil (inquotes : Bool) (prev : UInt8) (start : Bool)
    (str : List UInt8) : splitFrom inquotes prev start str ≠ [] := by
  rw [splitFrom_findSep]
  exact List.cons_ne_nil _ _

/-- A token is not empty, as its first character is not a separator. -/
theorem findSep_ne_nil (inquotes : Bool) (prev : UInt8) {str : List UInt8}
    (hne : str ≠ []) : (findSep inquotes prev true str).1 ≠ [] := by
  obtain ⟨c, rest, rfl⟩ := List.exists_cons_of_ne_nil hne
  rw [findSep]
  dsimp only
  rw [if_neg (by simp)]
  exact List.cons_ne_nil _ _

theorem tokens_eq (prev : UInt8) (str : List UInt8) :
    tokens prev str = dropEmpty (splitFrom false prev true str) := by
  induction hn : str.length using Nat.strongRecOn
    generalizing prev str with
  | ind n ih =>
      by_cases hne : str = []
      · rw [hne, tokens_nil]
        rfl
      · have hlen := findSep_tail_length false prev true hne
        rw [tokens_of_ne hne, splitFrom_findSep, ih _ (hn ▸ hlen) 0 _ rfl]
        by_cases hsep : (findSep false prev true str).2 = []
        · rw [if_pos hsep, hsep]
          have hlast : ¬ [(findSep false prev true str).1].getLast? = some [] := by
            simpa using findSep_ne_nil false prev hne
          rw [dropEmpty, dropEmpty, if_neg hlast]
          rfl
        · rw [if_neg hsep, dropEmpty_cons (splitFrom_ne_nil _ _ _ _)]

/-- The state of the loop in the middle of a line. -/
structure Scanned (chars : List UInt8) (i : ℕ) (inquotes : Bool) (prev : UInt8)
    (start : Bool) : Prop where
  quoted : inquotes = quotedAt chars i
  escaped : prev = ch '\\' ↔ escapedAt chars i
  start : start = true ↔ ∀ j, i = j + 1 → cutsAt chars j = true

section Scan

variable {chars : List UInt8} {i : ℕ} {inquotes : Bool} {prev c : UInt8}
  {start : Bool}

theorem quotesAfter_eq (hquoted : inquotes = quotedAt chars i)
    (hescaped : c = ch '\'' → (prev = ch '\\' ↔ escapedAt chars i))
    (hc : chars[i]? = some c) :
    quotesAfter inquotes prev c = quotedAt chars (i + 1) := by
  rw [quotesAfter, quotedAt, hquoted]
  refine if_congr ?_ rfl rfl
  rw [hc, Option.some.injEq]
  exact and_congr_right fun hquote => not_congr (hescaped hquote)

theorem escaped_next (hc : chars[i]? = some c) :
    c = ch '\\' ↔ escapedAt chars (i + 1) := by
  rw [escapedAt, hc, Option.some.injEq]

theorem quotedAt_semicolon (hc : chars[i]? = some (ch ';')) :
    quotedAt chars (i + 1) = quotedAt chars i := by
  rw [quotedAt, if_neg]
  rintro ⟨hquote, -⟩
  rw [hc] at hquote
  exact absurd (Option.some.inj hquote) (by decide)

/-- The loop stops where a separator stands. -/
theorem Scanned.stops_iff (h : Scanned chars i inquotes prev start)
    (hc : chars[i]? = some c) :
    (quotesAfter inquotes prev c = false ∧ c = ch ';' ∧ start = false ∧
      prev ≠ ch '\\') ↔ cutsAt chars i = true := by
  rw [quotesAfter_eq h.quoted (fun _ => h.escaped) hc]
  have hstart : start = false ↔ ∃ j, i = j + 1 ∧ cutsAt chars j = false := by
    rw [← Bool.not_eq_true, h.start]
    push Not
    simp only [ne_eq, Bool.not_eq_true]
  rw [hstart]
  constructor
  · rintro ⟨hquoted, rfl, ⟨j, rfl, hcut⟩, hescaped⟩
    rw [quotedAt_semicolon hc] at hquoted
    rw [cutsAt, hcut, separatesAt]
    simp [hc, hquoted, (not_congr h.escaped).mp hescaped]
  · intro hcut
    cases i with
    | zero => cases hcut
    | succ j =>
        rw [cutsAt, separatesAt, Bool.and_eq_true, decide_eq_true_eq, hc,
          Option.some.injEq, Bool.not_eq_true'] at hcut
        obtain ⟨⟨rfl, hescaped, hquoted⟩, hprev⟩ := hcut
        exact ⟨(quotedAt_semicolon hc).trans hquoted, rfl, ⟨j, rfl, hprev⟩,
          (not_congr h.escaped).mpr hescaped⟩

/-- From the middle of a line on the loop cuts at the separators. -/
theorem splitFrom_eq (str : List UInt8) (h : Scanned chars i inquotes prev start)
    (hstr : chars.drop i = str) :
    splitFrom inquotes prev start str = cutFrom (cutsAt chars) i str := by
  induction str generalizing i inquotes prev start with
  | nil => rfl
  | cons c rest ih =>
      have hc : chars[i]? = some c := by
        rw [← List.head?_drop, hstr, List.head?_cons]
      have hrest : chars.drop (i + 1) = rest := by
        rw [← List.tail_drop, hstr, List.tail_cons]
      have hstops := h.stops_iff hc
      rw [splitFrom, cutFrom]
      by_cases hcut : cutsAt chars i = true
      · have hstop := hstops.mpr hcut
        rw [if_pos hcut, if_pos hstop]
        refine congrArg _ (ih ⟨?_, ?_, ?_⟩ hrest)
        · rw [← quotesAfter_eq h.quoted (fun _ => h.escaped) hc, hstop.1]
        · rw [← escaped_next hc, hstop.2.1]
          decide
        · refine iff_of_true rfl fun j hj => ?_
          rwa [← Nat.succ_injective hj]
      · rw [if_neg hcut, if_neg fun hstop => hcut (hstops.mp hstop)]
        refine congrArg _ (ih ⟨?_, escaped_next hc, ?_⟩ hrest)
        · exact quotesAfter_eq h.quoted (fun _ => h.escaped) hc
        · exact iff_of_false (by simp) fun hall => hcut (hall i rfl)

end Scan

/-- The character in front of `cmdbuf` does not matter unless it would escape a quote
at the start of the line. -/
theorem tokens_commands {before : UInt8} {chars : List UInt8}
    (hbefore : before = ch '\\' → chars.head? ≠ some (ch '\'')) :
    tokens before chars = commands (cutsAt chars) chars := by
  have hsplit : splitFrom false before true chars =
      cutFrom (cutsAt chars) 0 chars := by
    cases chars with
    | nil => rfl
    | cons c rest =>
        have hc : (c :: rest)[0]? = some c := rfl
        have hquotes : quotesAfter false before c = quotedAt (c :: rest) 1 := by
          refine quotesAfter_eq rfl (fun hquote => ?_) hc
          exact iff_of_false (fun h => hbefore h (congrArg some hquote)) id
        rw [splitFrom, cutFrom, if_neg (by simp), if_neg (by simp [cutsAt])]
        refine congrArg _ (splitFrom_eq rest ⟨hquotes, escaped_next hc, ?_⟩ rfl)
        refine iff_of_false (by simp) fun hall => ?_
        exact absurd (hall 0 rfl) (by simp [cutsAt])
  rw [tokens_eq, hsplit]
  rfl

/-! ## The result -/

/-- A Ctrl-C has been typed. -/
def Interrupted (log : List Pass) : Prop :=
  ∃ pass ∈ log, pass.outcome.stops = true

/-- One of the commands has not been called or has failed. -/
def Failed (log : List Pass) : Prop :=
  ∃ pass ∈ log, pass.outcome.fails = true

/-- All commands may be repeated. -/
def Repeatable (log : List Pass) : Prop :=
  ∀ pass ∈ log, pass.outcome.repeats = true

/-- Commands have been run in order up to a Ctrl-C, and the result tells what has
become of them. -/
structure InOrder (tokens : List (List UInt8)) (ret : ℤ) (log : List Pass) :
    Prop where
  order : log.map Pass.token <+: tokens
  complete : ¬ Interrupted log → log.map Pass.token = tokens
  fails : ¬ Interrupted log → (ret = -1 ↔ Failed log)
  repeats : ¬ Interrupted log → ¬ Failed log →
    (ret = 1 ↔ Repeatable log) ∧ (ret = 0 ↔ ¬ Repeatable log)
  interrupted : Interrupted log → ret = 0

section Result

variable {σ : Type*} {cfg : CliConfig} {board : Board σ}

/-- The variables of `run_command` tell what has become of the commands. -/
structure Tells (st : RunState σ) : Prop where
  rc : st.rc = 0 ∨ st.rc = -1
  fails : st.rc = -1 ↔ Failed st.log
  repeats : st.repeatable = true ↔ Repeatable st.log
  goesOn : ¬ Interrupted st.log

theorem Tells.ret_eq_neg_one {st : RunState σ} (h : Tells st) :
    st.ret = -1 ↔ Failed st.log := by
  rw [← h.fails, RunState.ret]
  rcases h.rc with hrc | hrc
  · rw [hrc, if_neg (by simp)]
    refine iff_of_false ?_ (by decide)
    split
    · decide
    · decide
  · rw [hrc, if_pos (by decide)]

theorem Tells.ret_of_not_failed {st : RunState σ} (h : Tells st)
    (hfailed : ¬ Failed st.log) :
    (st.ret = 1 ↔ Repeatable st.log) ∧ (st.ret = 0 ↔ ¬ Repeatable st.log) := by
  have hrc : st.rc = 0 := h.rc.resolve_right (mt h.fails.mp hfailed)
  rw [← h.repeats, RunState.ret, if_neg (by simp [hrc])]
  split
  · rename_i hrepeatable
    simp [hrepeatable]
  · rename_i hrepeatable
    simp [hrepeatable]

theorem Tells.next {st st' : RunState σ} {pass : Pass} (h : Tells st)
    (hstep : Step st pass st') (hstops : pass.outcome.stops = false) :
    Tells st' := by
  refine ⟨?_, ?_, ?_, ?_⟩
  · rw [hstep.rc]
    split
    · exact Or.inr rfl
    · exact h.rc
  · rw [hstep.rc, Failed, hstep.log]
    simp only [List.mem_append, List.mem_singleton, or_and_right, exists_or,
      exists_eq_left]
    split
    · rename_i hfails
      exact iff_of_true rfl (Or.inr hfails)
    · rename_i hfails
      rw [h.fails, or_iff_left hfails, Failed]
  · rw [hstep.repeatable, Repeatable, hstep.log, Bool.and_eq_true, h.repeats,
      List.forall_mem_append, List.forall_mem_singleton, Repeatable]
  · rw [Interrupted, hstep.log]
    simp only [List.mem_append, List.mem_singleton, or_and_right, exists_or,
      exists_eq_left, hstops, Bool.false_eq_true, or_false]
    exact h.goesOn

/-- Commands that are run one behind the other. -/
theorem runAll_inOrder {rest : List (List UInt8)} {st st' : RunState σ} {ret : ℤ}
    (h : runAll cfg board rest st = .returned ret st') (hst : Tells st) :
    InOrder (st.log.map Pass.token ++ rest) ret st'.log := by
  induction rest generalizing st with
  | nil =>
      obtain ⟨rfl, rfl⟩ := RunResult.returned.inj h
      rw [List.append_nil]
      exact ⟨List.prefix_rfl, fun _ => rfl, fun _ => hst.ret_eq_neg_one,
        fun _ => hst.ret_of_not_failed, fun hint => absurd hint hst.goesOn⟩
  | cons token rest ih =>
      have hsteps := @runPass_steps σ cfg board token st
      rw [runAll] at h
      cases hpass : runPass cfg board token st with
      | overrun =>
          rw [hpass] at h
          cases h
      | stopped st₁ =>
          rw [hpass] at h hsteps
          obtain ⟨pass, htoken, hstep, hstops⟩ := hsteps
          obtain ⟨rfl, rfl⟩ := RunResult.returned.inj h
          have hint : Interrupted st₁.log :=
            ⟨pass, by rw [hstep.log]; simp, hstops⟩
          refine ⟨?_, fun hno => absurd hint hno, fun hno => absurd hint hno,
            fun hno => absurd hint hno, fun _ => rfl⟩
          rw [hstep.log, List.map_append, List.map_singleton, htoken]
          exact ⟨rest, by simp⟩
      | next st₁ =>
          rw [hpass] at h hsteps
          obtain ⟨pass, htoken, hstep, hstops⟩ := hsteps
          have hrest := ih h (hst.next hstep hstops)
          rwa [hstep.log, List.map_append, List.map_singleton, htoken,
            List.append_assoc, List.singleton_append] at hrest

theorem initState_tells (bootd : Bool) (argv : Argv) (world : σ) :
    Tells (initState board bootd argv world) :=
  ⟨Or.inl rfl, iff_of_false (by simp [initState]) fun h => by
      simp [Failed, initState] at h,
    iff_of_true rfl fun _ hpass => absurd hpass List.not_mem_nil,
    fun h => by simp [Interrupted, initState] at h⟩

end Result

/-! ## What becomes of each command -/

section Passes

variable {σ : Type*} (cfg : CliConfig) (board : Board σ)

/-- The expansion of a command is shorter than `CFG_CBSIZE` and has fewer words than
`CFG_MAXARGS`. -/
def FitsArrays (token : List UInt8) (st : RunState σ) : Prop :=
  (expand (board.getenv st.world) token).length < cfg.cbsize ∧
    (words (expand (board.getenv st.world) token)).length < cfg.maxargs

/-- What becomes of a command, from whether `bootd` is running and what the command
finds to what it leaves. -/
inductive PassOf : Bool → σ → Pass → Bool → σ → Prop
  | blank {bootd : Bool} {world : σ} {token : List UInt8}
      (hwords : words (expand (board.getenv world) token) = []) :
      PassOf bootd world ⟨token, expand (board.getenv world) token, .blank⟩ bootd
        world
  | unknown {bootd : Bool} {world : σ} {token word : List UInt8}
      {args : List (List UInt8)}
      (hwords : words (expand (board.getenv world) token) = word :: args)
      (hfind : board.findCmd word = none) :
      PassOf bootd world ⟨token, expand (board.getenv world) token, .unknown⟩ bootd
        world
  | tooManyArgs {bootd : Bool} {world : σ} {token word : List UInt8}
      {args : List (List UInt8)} {cmdtp : CmdTbl}
      (hwords : words (expand (board.getenv world) token) = word :: args)
      (hfind : board.findCmd word = some cmdtp)
      (hmany : cmdtp.maxargs < (word :: args).length) :
      PassOf bootd world
        ⟨token, expand (board.getenv world) token, .tooManyArgs cmdtp⟩ bootd world
  | recursion {bootd : Bool} {world : σ} {token word : List UInt8}
      {args : List (List UInt8)} {cmdtp : CmdTbl}
      (hwords : words (expand (board.getenv world) token) = word :: args)
      (hfind : board.findCmd word = some cmdtp)
      (hargs : (word :: args).length ≤ cmdtp.maxargs)
      (hbootd : cmdtp.bootd = true ∧ bootd = true) :
      PassOf bootd world
        ⟨token, expand (board.getenv world) token, .recursion cmdtp⟩ bootd world
  | ran {bootd : Bool} {world world' : σ} {token word : List UInt8}
      {args : List (List UInt8)} {cmdtp : CmdTbl} {argv : Argv} {ret : ℤ}
      (hwords : words (expand (board.getenv world) token) = word :: args)
      (hfind : board.findCmd word = some cmdtp)
      (hargs : (word :: args).length ≤ cmdtp.maxargs)
      (hbootd : ¬ (cmdtp.bootd = true ∧ bootd = true))
      (hargv : argv.Holds 0 ((word :: args).map some ++ [none]))
      (hcall : board.cmd cmdtp (bootd || cmdtp.bootd) (word :: args).length argv
        world = (ret, world')) :
      PassOf bootd world
        ⟨token, expand (board.getenv world) token,
          .ran cmdtp (word :: args).length argv ret (board.hadCtrlc world')⟩
        (bootd || cmdtp.bootd) world'

/-- Passes one behind the other. -/
inductive Passes (bootd : Bool) (world : σ) : List Pass → Bool → σ → Prop
  | none : Passes bootd world [] bootd world
  | snoc {log : List Pass} {pass : Pass} {bootd' bootd'' : Bool}
      {world' world'' : σ} (hlog : Passes bootd world log bootd' world')
      (hpass : PassOf board bootd' world' pass bootd'' world'') :
      Passes bootd world (log ++ [pass]) bootd'' world''

variable {cfg board}

/-- What a pass adds to the log is what becomes of its command. -/
def PassResult.AddsPass (board : Board σ) (st : RunState σ) :
    PassResult σ → Prop
  | .overrun => False
  | .stopped st' => ∃ pass, st'.log = st.log ++ [pass] ∧
      PassOf board st.bootd st.world pass st'.bootd st'.world
  | .next st' => ∃ pass, st'.log = st.log ++ [pass] ∧
      PassOf board st.bootd st.world pass st'.bootd st'.world

theorem callCmd_addsPass {token word : List UInt8} {args : List (List UInt8)}
    {cmdtp : CmdTbl} {st : RunState σ} {argv : Argv}
    (hwords : words (expand (board.getenv st.world) token) = word :: args)
    (hfind : board.findCmd word = some cmdtp)
    (hargs : (word :: args).length ≤ cmdtp.maxargs)
    (hbootd : ¬ (cmdtp.bootd = true ∧ st.bootd = true))
    (hargv : argv.Holds 0 ((word :: args).map some ++ [none])) :
    (callCmd board token (expand (board.getenv st.world) token) cmdtp
      (word :: args).length { st with argv := argv }).AddsPass board st := by
  have hpass := PassOf.ran hwords hfind hargs hbootd hargv rfl
  unfold callCmd
  dsimp only
  split
  · exact ⟨_, rfl, hpass⟩
  · exact ⟨_, rfl, hpass⟩

/-- A pass whose command fits. -/
theorem runPass_addsPass {token : List UInt8} {st : RunState σ}
    (hfits : FitsArrays cfg board token st) :
    (runPass cfg board token st).AddsPass board st := by
  obtain ⟨hlong, hfew⟩ := hfits
  obtain ⟨hargc, hargv⟩ := (parseLine_allWords_iff cfg.maxargs
    (expand (board.getenv st.world) token) st.argv).mpr (Or.inl hfew)
  unfold runPass
  rw [macroLoop_expand, List.take_of_length_le hlong.le]
  dsimp only
  rw [if_neg (not_le.mpr hlong), hargc]
  generalize (parseLine cfg.maxargs _ st.argv).2 = argv at hargv ⊢
  unfold dispatch
  cases hwords : words (expand (board.getenv st.world) token) with
  | nil => exact ⟨_, rfl, .blank hwords⟩
  | cons word args =>
      rw [hwords] at hargv
      have hfirst : argv 0 = some word := (Memory.holds_cons.mp hargv).1
      rw [if_neg (by simp)]
      dsimp only
      rw [hfirst, Option.getD_some]
      cases hfind : board.findCmd word with
      | none => exact ⟨_, rfl, .unknown hwords hfind⟩
      | some cmdtp =>
          dsimp only
          by_cases hmany : cmdtp.maxargs < (word :: args).length
          · rw [if_pos hmany]
            exact ⟨_, rfl, .tooManyArgs hwords hfind hmany⟩
          · rw [if_neg hmany]
            have hargs := not_lt.mp hmany
            by_cases hbootd : cmdtp.bootd = true ∧ st.bootd = true
            · rw [if_pos hbootd]
              exact ⟨_, rfl, .recursion hwords hfind hargs hbootd⟩
            · rw [if_neg hbootd]
              exact callCmd_addsPass hwords hfind hargs hbootd hargv

/-- A line whose commands fit comes to its end, one pass behind the other. -/
theorem runLoop_passes {bootd : Bool} {world : σ} {prev : UInt8}
    {str : List UInt8} {st : RunState σ}
    (hfits : ∀ token st', Reached cfg board prev str st token st' →
      FitsArrays cfg board token st')
    (hst : Passes board bootd world st.log st.bootd st.world) :
    ∃ ret st', runLoop cfg board prev str st = .returned ret st' ∧
      Passes board bootd world st'.log st'.bootd st'.world := by
  induction hn : str.length using Nat.strongRecOn
    generalizing prev str st with
  | ind n ih =>
      by_cases hne : str = []
      · subst hne
        exact ⟨_, _, runLoop_nil cfg board prev st, hst⟩
      · have hadds := runPass_addsPass (hfits _ _ (.first hne))
        have hlen := findSep_tail_length false prev true hne
        rw [runLoop_of_ne cfg board hne]
        cases hresult : runPass cfg board (findSep false prev true str).1 st with
        | overrun =>
            rw [hresult] at hadds
            exact hadds.elim
        | stopped st' =>
            rw [hresult] at hadds
            obtain ⟨pass, hlog, hpass⟩ := hadds
            refine ⟨0, st', rfl, ?_⟩
            rw [hlog]
            exact .snoc hst hpass
        | next st' =>
            rw [hresult] at hadds
            obtain ⟨pass, hlog, hpass⟩ := hadds
            refine ih _ (hn ▸ hlen)
              (fun token st'' hreached => hfits _ _ (.next hne hresult hreached))
              ?_ rfl
            rw [hlog]
            exact .snoc hst hpass

/-- The commands that a line comes to are commands of the line. -/
theorem Reached.mem_tokens {prev : UInt8} {str token : List UInt8}
    {st st' : RunState σ} (h : Reached cfg board prev str st token st') :
    token ∈ tokens prev str := by
  induction h with
  | first hne =>
      rw [tokens_of_ne hne]
      exact List.mem_cons_self
  | next hne _ _ ih =>
      rw [tokens_of_ne hne]
      exact List.mem_cons_of_mem _ ih

end Passes

/-! ## Whole lines -/

/-- A line that is not rejected comes to its end: its commands have been run in
order, and what has become of each of them is told by its words. -/
def RunsLine {σ : Type*} (cfg : CliConfig) (board : Board σ)
    (cmd : Option (List UInt8)) (st : RunState σ) (result : RunResult σ) : Prop :=
  if rejected cfg cmd then result = .returned (-1) st
  else
    ∃ ret st', result = .returned ret st' ∧
      InOrder (commands (cutsAt (cmd.getD [])) (cmd.getD [])) ret st'.log ∧
      Passes board st.bootd st.world st'.log st'.bootd st'.world

/-- A line has its commands run that are between all semicolons with no backslash in
front and not inside quotes. -/
def RunsBetweenAll {σ : Type*} (cfg : CliConfig) (cmd : Option (List UInt8)) :
    RunResult σ → Prop
  | .overrun => False
  | .returned ret st =>
      (¬ rejected cfg cmd → st.log.map Pass.token =
        commands (separatesAt (cmd.getD [])) (cmd.getD [])) ∧
      (ret = -1 ↔ rejected cfg cmd ∨ Failed st.log) ∧
      (ret ≠ -1 → (ret = 1 ↔ Repeatable st.log))

end TateFirmware.Cli
