import TateFirmware.LibGeneric.CString
import TateFirmware.Support.Memory

/-!
# Replacing the macros of a command

`process_macros` of `common/main.c` copies a command and replaces `${name}` and
`$(name)` by the values of variables.  It stops when `CFG_CBSIZE` characters have
been written, and there is then no terminator behind them.  What a command consists
of does not depend on the environment: it is a list of characters and of names.
-/

namespace TateFirmware.Cli

open LibGeneric Support

/-- `getenv` as a function of the name: the value is a C string. -/
abbrev Getenv := List UInt8 → Option { s : List UInt8 // (0 : UInt8) ∉ s }

/-- A character of a command, or the name of a variable. -/
inductive Piece where
  | char (c : UInt8)
  | var (name : List UInt8)
deriving DecidableEq, Repr

/-- What a piece is replaced by. -/
def Piece.text (getenv : Getenv) : Piece → List UInt8
  | .char c => [c]
  | .var name => (getenv name).elim [] Subtype.val

/-- `state`, with the characters since `varname_start`. -/
inductive MacroState where
  /-- Waiting for `$`. -/
  | dollar
  /-- Waiting for `(` or `{`. -/
  | bracket
  /-- Waiting for `)` or `}`. -/
  | name (varname : List UInt8)
  /-- Waiting for the closing quote. -/
  | quote
deriving DecidableEq, Repr

/-- The `switch` over the state: the next state and what is written.  `raw` is what
has been read, with the backslash if there was one. -/
def macroStep (prev c : UInt8) (raw : List UInt8) :
    MacroState → MacroState × List Piece
  | .dollar =>
      if c = ch '\'' ∧ prev ≠ ch '\\' then (.quote, [])
      else if c = ch '$' ∧ prev ≠ ch '\\' then (.bracket, [])
      else (.dollar, [.char c])
  | .bracket =>
      if c = ch '(' ∨ c = ch '{' then (.name [], [])
      else (.dollar, [.char (ch '$'), .char c])
  | .name varname =>
      if c = ch ')' ∨ c = ch '}' then
        (.dollar, [.var (varname ++ raw).dropLast])
      else (.name (varname ++ raw), [])
  | .quote =>
      if c = ch '\'' ∧ prev ≠ ch '\\' then (.dollar, [])
      else (.quote, [.char c])

/-- The character is a backslash that takes away one level of escape. -/
def escapes (state : MacroState) (prev c : UInt8) : Prop :=
  state ≠ .quote ∧ c = ch '\\' ∧ prev ≠ ch '\\'

instance (state : MacroState) (prev c : UInt8) :
    Decidable (escapes state prev c) :=
  inferInstanceAs (Decidable (_ ∧ _))

/-- Write pieces while there is room. -/
def emit (cbsize : ℕ) (getenv : Getenv) (out : List UInt8)
    (pieces : List Piece) : List UInt8 :=
  pieces.foldl
    (fun out piece => out ++ (piece.text getenv).take (cbsize - out.length)) out

/-- The loop of `process_macros`: what has been written at its end. -/
def macroLoop (cbsize : ℕ) (getenv : Getenv) :
    List UInt8 → MacroState → UInt8 → List UInt8 → List UInt8
  | [], _, _, out => out
  | c :: input, state, prev, out =>
      if cbsize ≤ out.length then out
      else if escapes state prev c then
        match input with
        | [] => out
        | c' :: input =>
            let (state, pieces) := macroStep c c' [c, c'] state
            macroLoop cbsize getenv input state c' (emit cbsize getenv out pieces)
      else
        let (state, pieces) := macroStep prev c [c] state
        macroLoop cbsize getenv input state c (emit cbsize getenv out pieces)

/-- `process_macros`: the memory of the output. -/
def processMacros (cbsize : ℕ) (getenv : Getenv) (input : List UInt8)
    (output : Memory UInt8) : Memory UInt8 :=
  let out := macroLoop cbsize getenv input .dollar 0 []
  let output := output.copyIn 0 out
  if out.length < cbsize then output.copyIn out.length [0] else output

/-! ## The pieces of a command -/

/-- The pieces of a command from a state on. -/
def piecesFrom : List UInt8 → MacroState → UInt8 → List Piece
  | [], _, _ => []
  | c :: input, state, prev =>
      if escapes state prev c then
        match input with
        | [] => []
        | c' :: input =>
            (macroStep c c' [c, c'] state).2 ++
              piecesFrom input (macroStep c c' [c, c'] state).1 c'
      else
        (macroStep prev c [c] state).2 ++
          piecesFrom input (macroStep prev c [c] state).1 c

/-- The pieces of a command. -/
def pieces (input : List UInt8) : List Piece := piecesFrom input .dollar 0

/-- A command with all its macros replaced. -/
def expand (getenv : Getenv) (input : List UInt8) : List UInt8 :=
  (pieces input).flatMap (Piece.text getenv)

section Loop

variable {cbsize : ℕ} {getenv : Getenv}

theorem append_take_sub {out : List UInt8} (hout : out.length ≤ cbsize)
    (l : List UInt8) :
    out ++ l.take (cbsize - out.length) = (out ++ l).take cbsize := by
  rw [List.take_append, List.take_of_length_le hout]

theorem take_append_take (l rest : List UInt8) :
    (l.take cbsize ++ rest).take cbsize = (l ++ rest).take cbsize := by
  rcases Nat.le_total cbsize l.length with hle | hle
  · rw [List.take_append_of_le_length (by rw [List.length_take]; omega),
      List.take_append_of_le_length hle, List.take_take, min_self]
  · rw [List.take_of_length_le hle]

/-- Writing with a limit. -/
theorem emit_eq (out : List UInt8) (hout : out.length ≤ cbsize)
    (ps : List Piece) : emit cbsize getenv out ps =
      (out ++ ps.flatMap (Piece.text getenv)).take cbsize := by
  unfold emit
  induction ps generalizing out with
  | nil =>
      rw [List.flatMap_nil, List.append_nil, List.take_of_length_le hout]
      rfl
  | cons p ps ih =>
      rw [List.foldl_cons, append_take_sub hout,
        ih _ (List.length_take_le _ _), take_append_take, List.flatMap_cons,
        List.append_assoc]

theorem emit_length_le {out : List UInt8} (hout : out.length ≤ cbsize)
    (ps : List Piece) : (emit cbsize getenv out ps).length ≤ cbsize := by
  rw [emit_eq out hout]
  exact List.length_take_le _ _

/-- The loop writes the pieces as far as there is room. -/
theorem macroLoop_eq (input : List UInt8) (state : MacroState) (prev : UInt8)
    (out : List UInt8) (hout : out.length ≤ cbsize) :
    macroLoop cbsize getenv input state prev out =
      (out ++ (piecesFrom input state prev).flatMap
        (Piece.text getenv)).take cbsize := by
  induction input, state, prev, out using
    macroLoop.induct cbsize getenv with
  | case1 state prev out =>
      rw [macroLoop, piecesFrom, List.flatMap_nil, List.append_nil,
        List.take_of_length_le hout]
  | case2 c input state prev out hfull =>
      have heq : out.length = cbsize := le_antisymm hout hfull
      rw [macroLoop.eq_def]
      dsimp only
      rw [if_pos hfull, List.take_append_of_le_length hfull, ← heq,
        List.take_length]
  | case3 c state prev out hroom hescape =>
      rw [macroLoop, if_neg hroom, if_pos hescape, piecesFrom, if_pos hescape,
        List.flatMap_nil, List.append_nil, List.take_of_length_le hout]
  | case4 c state prev out hroom hescape c' input state' pieces hstep ih =>
      rw [macroLoop, if_neg hroom, if_pos hescape, piecesFrom, if_pos hescape,
        hstep]
      dsimp only
      rw [ih (emit_length_le hout _), emit_eq out hout, take_append_take,
        List.flatMap_append, List.append_assoc]
  | case5 c input state prev out hroom hescape state' pieces hstep ih =>
      rw [macroLoop.eq_def, piecesFrom.eq_def]
      dsimp only
      rw [if_neg hroom, if_neg hescape, if_neg hescape, hstep]
      dsimp only
      rw [ih (emit_length_le hout _), emit_eq out hout, take_append_take,
        List.flatMap_append, List.append_assoc]

end Loop

/-! ## What the pieces contain -/

/-- The characters of a step are read, or are a `$`. -/
theorem char_of_macroStep {prev c c' : UInt8} {raw : List UInt8}
    {state : MacroState} (h : .char c' ∈ (macroStep prev c raw state).2) :
    c' = c ∨ c' = ch '$' := by
  cases state with
  | dollar =>
      rw [macroStep] at h
      split at h
      · cases h
      · split at h
        · cases h
        · exact Or.inl (Piece.char.inj (List.mem_singleton.mp h))
  | bracket =>
      rw [macroStep] at h
      split at h
      · cases h
      · rcases List.mem_cons.mp h with h | h
        · exact Or.inr (Piece.char.inj h)
        · exact Or.inl (Piece.char.inj (List.mem_singleton.mp h))
  | name varname =>
      rw [macroStep] at h
      split at h
      · cases List.mem_singleton.mp h
      · cases h
  | quote =>
      rw [macroStep] at h
      split at h
      · cases h
      · exact Or.inl (Piece.char.inj (List.mem_singleton.mp h))

theorem char_of_piecesFrom {input : List UInt8} {state : MacroState}
    {prev c' : UInt8} (h : .char c' ∈ piecesFrom input state prev) :
    c' ∈ input ∨ c' = ch '$' := by
  induction input, state, prev using piecesFrom.induct with
  | case1 => cases h
  | case2 c state prev hescape =>
      rw [piecesFrom, if_pos hescape] at h
      cases h
  | case3 c state prev hescape c'' input ih =>
      rw [piecesFrom, if_pos hescape] at h
      rcases List.mem_append.mp h with h | h
      · rcases char_of_macroStep h with rfl | h
        · exact Or.inl (by simp)
        · exact Or.inr h
      · exact (ih h).imp_left fun hmem => by simp [hmem]
  | case4 c input state prev hescape ih =>
      rw [piecesFrom.eq_def] at h
      dsimp only at h
      rw [if_neg hescape] at h
      rcases List.mem_append.mp h with h | h
      · rcases char_of_macroStep h with rfl | h
        · exact Or.inl (by simp)
        · exact Or.inr h
      · exact (ih h).imp_left fun hmem => by simp [hmem]

/-- The expansion of a C string is a C string. -/
theorem zero_notMem_expand (getenv : Getenv) {input : List UInt8}
    (hinput : (0 : UInt8) ∉ input) : (0 : UInt8) ∉ expand getenv input := by
  intro hmem
  obtain ⟨piece, hpiece, hzero⟩ := List.mem_flatMap.mp hmem
  cases piece with
  | char c =>
      obtain rfl := List.mem_singleton.mp hzero
      rcases char_of_piecesFrom hpiece with h | h
      · exact hinput h
      · exact absurd h (by decide)
  | var name =>
      rw [Piece.text] at hzero
      cases hvalue : getenv name with
      | none =>
          rw [hvalue] at hzero
          cases hzero
      | some value =>
          rw [hvalue] at hzero
          exact value.2 hzero

/-- A command without a backslash, a quote or a `$`. -/
def Plain (input : List UInt8) : Prop :=
  ch '\\' ∉ input ∧ ch '\'' ∉ input ∧ ch '$' ∉ input

theorem piecesFrom_plain {input : List UInt8} (h : Plain input) (prev : UInt8) :
    piecesFrom input .dollar prev = input.map .char := by
  induction input generalizing prev with
  | nil => rfl
  | cons c input ih =>
      obtain ⟨hslash, hquote, hdollar⟩ := h
      rw [List.mem_cons, not_or] at hslash hquote hdollar
      have hescape : ¬ escapes .dollar prev c := fun hesc =>
        hslash.1 hesc.2.1.symm
      rw [piecesFrom.eq_def]
      dsimp only
      rw [if_neg hescape, macroStep, if_neg fun hq => hquote.1 hq.1.symm,
        if_neg fun hd => hdollar.1 hd.1.symm, List.map_cons]
      exact congrArg _ (ih ⟨hslash.2, hquote.2, hdollar.2⟩ c)

theorem expand_plain (getenv : Getenv) {input : List UInt8}
    (h : Plain input) : expand getenv input = input := by
  rw [expand, pieces, piecesFrom_plain h, List.flatMap_map]
  exact List.flatMap_singleton' input

/-! ## The output -/

section Output

variable {cbsize : ℕ} {getenv : Getenv} {input : List UInt8}

theorem macroLoop_expand : macroLoop cbsize getenv input .dollar 0 [] =
    (expand getenv input).take cbsize := by
  rw [macroLoop_eq input .dollar 0 [] (Nat.zero_le _), List.nil_append]
  rfl

/-- An expansion that fits stands in the output with its terminator. -/
theorem processMacros_fits (output : Memory UInt8)
    (hfits : (expand getenv input).length < cbsize) :
    (processMacros cbsize getenv input output).Holds 0
      (expand getenv input ++ [0]) := by
  have htake : (expand getenv input).take cbsize = expand getenv input :=
    List.take_of_length_le hfits.le
  unfold processMacros
  dsimp only
  rw [macroLoop_expand, htake, if_pos hfits]
  have hend := (Memory.holds_copyIn output 0
    (expand getenv input)).append_copyIn [0]
  rwa [Nat.zero_add] at hend

/-- An expansion that does not fit fills the output. -/
theorem processMacros_overflow (output : Memory UInt8)
    (hlong : cbsize ≤ (expand getenv input).length) :
    (processMacros cbsize getenv input output).Holds 0
      ((expand getenv input).take cbsize) := by
  unfold processMacros
  dsimp only
  rw [macroLoop_expand, if_neg (by rw [List.length_take]; omega)]
  exact Memory.holds_copyIn output 0 _

/-- The output is a terminated string of fewer than `CFG_CBSIZE` characters. -/
def TerminatedBelow (cbsize : ℕ) (output : Memory UInt8) : Prop :=
  ∃ t : List UInt8, t.length < cbsize ∧ (0 : UInt8) ∉ t ∧
    output.Holds 0 (t ++ [0])

theorem not_terminatedBelow (hinput : (0 : UInt8) ∉ input)
    (output : Memory UInt8) (hlong : cbsize ≤ (expand getenv input).length) :
    ¬ TerminatedBelow cbsize (processMacros cbsize getenv input output) := by
  rintro ⟨t, hlen, -, hholds⟩
  have hfull := processMacros_overflow output hlong t.length
    (by rw [List.length_take]; omega)
  have hend := hholds t.length (by simp)
  rw [List.getElem_concat_length rfl] at hend
  rw [hend, List.getElem_take] at hfull
  exact zero_notMem_expand getenv hinput (hfull ▸ List.getElem_mem _)

end Output

/-- The output of `process_macros` is a terminated string of fewer than `CFG_CBSIZE`
characters, and a command without special characters is copied. -/
def Processes (cbsize : ℕ) (getenv : Getenv)
    (s : { s : List UInt8 // (0 : UInt8) ∉ s }) (output : Memory UInt8) :
    Prop :=
  TerminatedBelow cbsize (processMacros cbsize getenv s.1 output) ∧
    (Plain s.1 → (processMacros cbsize getenv s.1 output).Holds 0 (s.1 ++ [0]))

/-- The output is as it should be exactly if the expansion is shorter than
`CFG_CBSIZE`. -/
theorem processes_iff (cbsize : ℕ) (getenv : Getenv)
    (s : { s : List UInt8 // (0 : UInt8) ∉ s }) (output : Memory UInt8) :
    Processes cbsize getenv s output ↔
      (expand getenv s.1).length < cbsize := by
  constructor
  · rintro ⟨hterminated, -⟩
    by_contra hlong
    exact not_terminatedBelow s.2 output (not_lt.mp hlong) hterminated
  · intro hfits
    have hholds := processMacros_fits output hfits
    refine ⟨⟨_, hfits, zero_notMem_expand getenv s.2, hholds⟩, fun hplain => ?_⟩
    rwa [expand_plain getenv hplain] at hholds

/-- A value of 256 characters. -/
def longValue : { s : List UInt8 // (0 : UInt8) ∉ s } :=
  ⟨List.replicate 256 (ch 'x'), fun h =>
    absurd (List.eq_of_mem_replicate h) (by decide)⟩

/-- The value of one variable fills the output. -/
theorem not_processes : ¬ Processes 256 (fun _ => some longValue)
    ⟨text "${a}", by decide⟩ fun _ => 0 := by
  rintro ⟨hterminated, -⟩
  have hpieces : pieces (text "${a}") = [.var (text "a")] := by decide
  refine @not_terminatedBelow _ _ (text "${a}") (by decide) _ ?_ hterminated
  rw [expand, hpieces, List.flatMap_singleton, Piece.text, Option.elim_some,
    longValue, List.length_replicate]

end TateFirmware.Cli
