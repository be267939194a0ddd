import TateFirmware.Fastboot.Interface

/-!
# The environment text of `flash:environment`

On NAND boards the text downloaded for an environment partition is parsed in
place by `parse_env`, once to validate it and once to save it.  The parser
marks the ends of names and values by storing NUL bytes into the transfer
buffer, one of them behind the text.
-/

namespace TateFirmware.Fastboot

open Support LibGeneric

/-- The local variables of `parse_env`; the pointers are indices into the
buffer. -/
structure ParseState where
  var : Option ℕ
  varEnd : Option ℕ
  val : Option ℕ
  valEnd : Option ℕ
  sets : ℕ
  buff : TrackedMemory UInt8
  updates : List EnvUpdate

def isSpaceTab (c : UInt8) : Bool := c = ch ' ' || c = ch '\t'

def isCrLf (c : UInt8) : Bool := c = ch '\r' || c = ch '\n'

/-- The C string at an index of the text, which ends at `size` at the
latest. -/
def strAt (buff : TrackedMemory UInt8) (size p : ℕ) : List UInt8 :=
  cstr (buff.cell.read p (size + 1 - p))

/-- `save_env(ptn, var, val)`: the environment update it makes. -/
def saveEnv (size : ℕ) (st : ParseState) (var : ℕ) : ParseState :=
  { st with
    updates := st.updates ++
      [⟨strAt st.buff size var, st.val.map (strAt st.buff size)⟩] }

/-- `*p = '\0'` for a pointer that is not null. -/
def endAt (st : ParseState) (p : ℕ) : ParseState :=
  { st with buff := st.buff.store p 0 }

/-- The escaped line end at `i`: the backslash and the line end become
spaces, and so does the second byte of a DOS line end. -/
def unescape (i : ℕ) (st : ParseState) : ParseState :=
  let buff :=
    if st.buff.cell i = ch '\r' ∧ st.buff.cell (i + 1) = ch '\n' then
      st.buff.store (i + 1) (ch ' ')
    else st.buff
  { st with buff := (buff.store i (ch ' ')).store (i - 1) (ch ' ') }

/-- The `if`-chain of the loop of `parse_env` at index `i`; `none` is the
internal error. -/
def parseChar (save : Bool) (size i : ℕ) (st : ParseState) :
    Option ParseState :=
  let c := st.buff.cell i
  match st.var with
  | none =>
      if isSpaceTab c || isCrLf c then some st else some { st with var := some i }
  | some var =>
      if (st.varEnd.isNone || st.val.isNone) && isCrLf c then
        -- This is the case when a variable is unset.
        let st := if save then saveEnv size (endAt st i) var else st
        some { st with var := none, varEnd := none, sets := st.sets + 1 }
      else if st.varEnd.isNone then
        if isSpaceTab c then some { st with varEnd := some i } else some st
      else if st.val.isNone then
        if isSpaceTab c then some st else some { st with val := some i }
      else if st.valEnd.isNone then
        if isCrLf c then
          if st.buff.cell (i - 1) = ch '\\' then some (unescape i st)
          else some { st with valEnd := some i }
        else some st
      else none

/-- The end of the loop body: save a pair that is complete. -/
def savePair (save : Bool) (size : ℕ) (st : ParseState) : ParseState :=
  match st.valEnd with
  | none => st
  | some valEnd =>
      let st :=
        if save then
          let st := (st.varEnd.elim st (endAt st))
          let st := endAt st valEnd
          st.var.elim st (saveEnv size st)
        else st
      { st with
        var := none
        varEnd := none
        val := none
        valEnd := none
        sets := st.sets + 1 }

/-- The loop of `parse_env` over the `n` last bytes of the text. -/
def parseLoop (save : Bool) (size : ℕ) : ℕ → ParseState → Option ParseState
  | 0, st => some st
  | n + 1, st =>
      match parseChar save size (size - (n + 1)) st with
      | none => none
      | some st => parseLoop save size n (savePair save size st)

/-- The corner case behind the loop: no newline at the end of the input. -/
def parseTrailing (save : Bool) (size : ℕ) (st : ParseState) : ParseState :=
  match st.var with
  | none => st
  | some var =>
      let st :=
        if save then saveEnv size (st.varEnd.elim st (endAt st)) var else st
      { st with sets := st.sets + 1 }

/-- What a pass of `parse_env` returns and leaves behind. -/
structure ParseResult where
  ret : ℕ
  errString : List UInt8
  buff : TrackedMemory UInt8
  updates : List EnvUpdate

/-- `parse_env(ptn, err_string, save, debug)` on a text of `size` bytes. -/
def parseEnv (save : Bool) (size : ℕ) (errString : List UInt8)
    (buff : TrackedMemory UInt8) : ParseResult :=
  let buff := if save then buff.store size 0 else buff
  let start : ParseState := ⟨none, none, none, none, 0, buff, []⟩
  match parseLoop save size size start with
  | none => ⟨1, text "Internal Error", buff, []⟩
  | some st =>
      let st := parseTrailing save size st
      if st.sets = 0 then ⟨1, text "No variables set", st.buff, st.updates⟩
      else ⟨0, errString, st.buff, st.updates⟩

/-- `saveenv_to_ptn`: parse the input twice, saving only if all of it is
correct. -/
def saveenvToPtn (size : ℕ) (buff : TrackedMemory UInt8) : ParseResult :=
  let check := parseEnv false size (text "Unknown Error") buff
  if check.ret = 0 then parseEnv true size check.errString check.buff
  else check

/-! ## Stores of the environment parser -/

section Stores

variable {size bound : ℕ}

/-- The pointers the parser stores through point into the text. -/
structure ParseState.Within (size bound : ℕ) (st : ParseState) : Prop where
  varEnd_lt : ∀ p ∈ st.varEnd, p < size
  valEnd_lt : ∀ p ∈ st.valEnd, p < size
  high_le : st.buff.high ≤ bound

theorem endAt_within {st : ParseState} {p : ℕ} (hst : st.Within size bound)
    (hp : p < bound) : (endAt st p).Within size bound where
  varEnd_lt := hst.varEnd_lt
  valEnd_lt := hst.valEnd_lt
  high_le := TrackedMemory.store_high_le 0 hst.high_le hp

theorem saveEnv_within {st : ParseState} (var : ℕ)
    (hst : st.Within size bound) : (saveEnv size st var).Within size bound where
  varEnd_lt := hst.varEnd_lt
  valEnd_lt := hst.valEnd_lt
  high_le := hst.high_le

theorem unescape_within {st : ParseState} {i : ℕ}
    (hst : st.Within size bound) (hi : i + 1 < bound) :
    (unescape i st).Within size bound where
  varEnd_lt := hst.varEnd_lt
  valEnd_lt := hst.valEnd_lt
  high_le := by
    unfold unescape
    dsimp only
    have hfirst : (if st.buff.cell i = ch '\r' ∧
        st.buff.cell (i + 1) = ch '\n' then st.buff.store (i + 1) (ch ' ')
        else st.buff).high ≤ bound := by
      split
      · exact TrackedMemory.store_high_le _ hst.high_le hi
      · exact hst.high_le
    exact TrackedMemory.store_high_le _
      (TrackedMemory.store_high_le _ hfirst (by omega)) (by omega)

/-- One character of the text stores no further than one byte behind it. -/
theorem parseChar_within {save : Bool} {i : ℕ} {st st' : ParseState}
    (hst : st.Within size bound) (hi : i < size) (hsize : size < bound)
    (hchar : parseChar save size i st = some st') :
    st'.Within size bound := by
  unfold parseChar at hchar
  dsimp only at hchar
  cases hvar : st.var with
  | none =>
      rw [hvar] at hchar
      dsimp only at hchar
      split at hchar
      · obtain rfl := Option.some.inj hchar
        exact hst
      · obtain rfl := Option.some.inj hchar
        exact ⟨hst.varEnd_lt, hst.valEnd_lt, hst.high_le⟩
  | some var =>
      rw [hvar] at hchar
      dsimp only at hchar
      split at hchar
      · -- The variable is unset at the end of the line.
        obtain rfl := Option.some.inj hchar
        have hsaved : (if save then saveEnv size (endAt st i) var
            else st).Within size bound := by
          split
          · exact saveEnv_within _ (endAt_within hst (by omega))
          · exact hst
        exact ⟨by simp, hsaved.valEnd_lt, hsaved.high_le⟩
      · split at hchar
        · split at hchar
          · obtain rfl := Option.some.inj hchar
            exact ⟨by simpa using hi, hst.valEnd_lt, hst.high_le⟩
          · obtain rfl := Option.some.inj hchar
            exact hst
        · split at hchar
          · split at hchar
            · obtain rfl := Option.some.inj hchar
              exact hst
            · obtain rfl := Option.some.inj hchar
              exact ⟨hst.varEnd_lt, hst.valEnd_lt, hst.high_le⟩
          · split at hchar
            · split at hchar
              · split at hchar
                · obtain rfl := Option.some.inj hchar
                  exact unescape_within hst (by omega)
                · obtain rfl := Option.some.inj hchar
                  exact ⟨hst.varEnd_lt, by simpa using hi, hst.high_le⟩
              · obtain rfl := Option.some.inj hchar
                exact hst
            · simp at hchar

theorem savePair_within {save : Bool} {st : ParseState}
    (hst : st.Within size bound) (hsize : size < bound) :
    (savePair save size st).Within size bound := by
  unfold savePair
  cases hval : st.valEnd with
  | none => exact hst
  | some valEnd =>
      have hvalEnd : valEnd < size := hst.valEnd_lt valEnd hval
      dsimp only
      have hsaved : (if save then
          (endAt (st.varEnd.elim st (endAt st)) valEnd).var.elim
            (endAt (st.varEnd.elim st (endAt st)) valEnd)
            (saveEnv size (endAt (st.varEnd.elim st (endAt st)) valEnd))
          else st).Within size bound := by
        have hvar : (st.varEnd.elim st (endAt st)).Within size bound := by
          cases hend : st.varEnd with
          | none => exact hst
          | some varEnd =>
              have := hst.varEnd_lt varEnd hend
              exact endAt_within hst (by omega)
        have hends := endAt_within (p := valEnd) hvar (by omega)
        split
        · cases (endAt (st.varEnd.elim st (endAt st)) valEnd).var with
          | none => exact hends
          | some var => exact saveEnv_within _ hends
        · exact hst
      exact ⟨by simp, by simp, hsaved.high_le⟩

theorem parseLoop_within {save : Bool} {n : ℕ} {st st' : ParseState}
    (hst : st.Within size bound) (hsize : size < bound) (hn : n ≤ size)
    (hloop : parseLoop save size n st = some st') :
    st'.Within size bound := by
  induction n generalizing st with
  | zero =>
      obtain rfl := Option.some.inj hloop
      exact hst
  | succ n ih =>
      rw [parseLoop] at hloop
      cases hchar : parseChar save size (size - (n + 1)) st with
      | none =>
          rw [hchar] at hloop
          simp at hloop
      | some next =>
          rw [hchar] at hloop
          have hnext := parseChar_within hst (by omega) hsize hchar
          exact ih (savePair_within hnext hsize) (by omega) hloop

theorem parseTrailing_within (save : Bool) {st : ParseState}
    (hst : st.Within size bound) (hsize : size < bound) :
    (parseTrailing save size st).Within size bound := by
  unfold parseTrailing
  cases hvar : st.var with
  | none => exact hst
  | some var =>
      dsimp only
      have hend : (st.varEnd.elim st (endAt st)).Within size bound := by
        cases hvarEnd : st.varEnd with
        | none => exact hst
        | some varEnd =>
            have := hst.varEnd_lt varEnd hvarEnd
            exact endAt_within hst (by omega)
      split
      · have := saveEnv_within var hend
        exact ⟨this.varEnd_lt, this.valEnd_lt, this.high_le⟩
      · exact ⟨hst.varEnd_lt, hst.valEnd_lt, hst.high_le⟩

/-- A pass of `parse_env` stores no further than one byte behind the text. -/
theorem parseEnv_high_le {save : Bool} {errString : List UInt8}
    {buff : TrackedMemory UInt8} (hsize : size < bound)
    (hbuff : buff.high ≤ bound) :
    (parseEnv save size errString buff).buff.high ≤ bound := by
  unfold parseEnv
  dsimp only
  have hstart : (if save then buff.store size 0 else buff).high ≤ bound := by
    split
    · exact TrackedMemory.store_high_le 0 hbuff hsize
    · exact hbuff
  generalize hrun : parseLoop save size size _ = result
  cases result with
  | none => exact hstart
  | some st =>
      have hst : st.Within size bound :=
        parseLoop_within ⟨by simp, by simp, hstart⟩ hsize le_rfl hrun
      have := (parseTrailing_within save hst hsize).high_le
      dsimp only
      split <;> exact this

theorem saveenvToPtn_high_le {buff : TrackedMemory UInt8}
    (hsize : size < bound) (hbuff : buff.high ≤ bound) :
    (saveenvToPtn size buff).buff.high ≤ bound := by
  have hcheck : (parseEnv false size (text "Unknown Error") buff).buff.high ≤
      bound := parseEnv_high_le hsize hbuff
  unfold saveenvToPtn
  dsimp only
  split
  · exact parseEnv_high_le hsize hcheck
  · exact hcheck

/-- The text consists of blanks and line ends only. -/
def BlankText (size : ℕ) (buff : TrackedMemory UInt8) : Prop :=
  ∀ i < size, isSpaceTab (buff.cell i) || isCrLf (buff.cell i)

/-- A blank text sets nothing and is not saved. -/
theorem saveenvToPtn_of_blank {buff : TrackedMemory UInt8}
    (hblank : BlankText size buff) : (saveenvToPtn size buff).buff = buff := by
  have hloop : ∀ n ≤ size, parseLoop false size n
      ⟨none, none, none, none, 0, buff, []⟩ =
        some ⟨none, none, none, none, 0, buff, []⟩ := by
    intro n hn
    induction n with
    | zero => rfl
    | succ n ih =>
        have hchar := hblank (size - (n + 1)) (by omega)
        rw [parseLoop]
        simp only [parseChar, hchar, if_true, savePair]
        exact ih (by omega)
  simp [saveenvToPtn, parseEnv, hloop size le_rfl, parseTrailing]

end Stores

/-!
## The phases of the environment parser

Between two bytes the parser is in one of four phases of a line: in front of
the name, in the name, in the gap behind it, or in the value.  Its pointers
are those of the phase, and each byte has one of four effects.
-/

/-- How far the parser has come in the line, with its pointers. -/
inductive Phase where
  | blank
  | name (var : ℕ)
  | gap (var varEnd : ℕ)
  | value (var varEnd val : ℕ)

/-- The state of the parser in a phase. -/
def Phase.state (ph : Phase) (sets : ℕ) (buff : TrackedMemory UInt8)
    (updates : List EnvUpdate) : ParseState :=
  match ph with
  | .blank => ⟨none, none, none, none, sets, buff, updates⟩
  | .name var => ⟨some var, none, none, none, sets, buff, updates⟩
  | .gap var varEnd => ⟨some var, some varEnd, none, none, sets, buff, updates⟩
  | .value var varEnd val =>
      ⟨some var, some varEnd, some val, none, sets, buff, updates⟩

/-- What a byte makes the parser do: go on in a phase, unset a variable, set
it, or take the byte for an escaped line end. -/
inductive Effect where
  | move (ph : Phase)
  | unset (var : ℕ)
  | set (var varEnd val : ℕ)
  | escape

/-- The effect of the byte `c` at index `i` behind the byte `prev`. -/
def Phase.effect (i : ℕ) (prev c : UInt8) : Phase → Effect
  | .blank =>
      if isSpaceTab c || isCrLf c then .move .blank else .move (.name i)
  | .name var =>
      if isCrLf c then .unset var
      else if isSpaceTab c then .move (.gap var i) else .move (.name var)
  | .gap var varEnd =>
      if isCrLf c then .unset var
      else if isSpaceTab c then .move (.gap var varEnd)
      else .move (.value var varEnd i)
  | .value var varEnd val =>
      if isCrLf c then
        if prev = ch '\\' then .escape else .set var varEnd val
      else .move (.value var varEnd val)

/-- The text with the ends of a variable marked, and the operation on it. -/
def Effect.save (size i : ℕ) (buff : TrackedMemory UInt8) :
    Effect → TrackedMemory UInt8 × List EnvUpdate
  | .move _ => (buff, [])
  | .unset var =>
      (buff.store i 0, [⟨strAt (buff.store i 0) size var, none⟩])
  | .set var varEnd val =>
      ((buff.store varEnd 0).store i 0,
        [⟨strAt ((buff.store varEnd 0).store i 0) size var,
          some (strAt ((buff.store varEnd 0).store i 0) size val)⟩])
  | .escape => (buff, [])

/-- The loop body of `parse_env`. -/
def parseBody (save : Bool) (size i : ℕ) (st : ParseState) :
    Option ParseState :=
  (parseChar save size i st).map (savePair save size)

theorem parseLoop_succ (save : Bool) (size n : ℕ) (st : ParseState) :
    parseLoop save size (n + 1) st =
      (parseBody save size (size - (n + 1)) st).bind
        (parseLoop save size n) := by
  rw [parseLoop, parseBody]
  cases parseChar save size (size - (n + 1)) st <;> rfl

section Body

variable (save : Bool) (size i : ℕ) (ph : Phase) (sets : ℕ)
  (buff : TrackedMemory UInt8) (updates : List EnvUpdate)

/-- The state behind an effect. -/
def Phase.after : Effect → ParseState
  | .move ph' => ph'.state sets buff updates
  | .escape => unescape i (ph.state sets buff updates)
  | e =>
      let saved := if save then e.save size i buff else (buff, [])
      Phase.blank.state (sets + 1) saved.1 (updates ++ saved.2)

/-- The loop body has the effect of its byte. -/
theorem parseBody_state :
    parseBody save size i (ph.state sets buff updates) =
      some (ph.after save size i sets buff updates
        (ph.effect i (buff.cell (i - 1)) (buff.cell i))) := by
  unfold parseBody parseChar
  cases hcrlf : isCrLf (buff.cell i) <;>
    cases hblank : isSpaceTab (buff.cell i)
  all_goals
    cases ph with
    | blank => simp [Phase.state, Phase.effect, hcrlf, hblank, Phase.after,
        savePair]
    | name var =>
        cases save <;> simp [Phase.state, Phase.effect, hcrlf, hblank,
          Phase.after, savePair, saveEnv, endAt, Effect.save]
    | gap var varEnd =>
        cases save <;> simp [Phase.state, Phase.effect, hcrlf, hblank,
          Phase.after, savePair, saveEnv, endAt, Effect.save]
    | value var varEnd val =>
        by_cases hescape : buff.cell (i - 1) = ch '\\'
        · simp [Phase.state, Phase.effect, hcrlf, hescape, Phase.after,
            savePair, unescape]
        · cases save <;> simp [Phase.state, Phase.effect, hcrlf, hescape,
            Phase.after, savePair, saveEnv, endAt, Effect.save]

end Body

end TateFirmware.Fastboot
