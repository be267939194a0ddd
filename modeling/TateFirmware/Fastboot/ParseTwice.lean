import TateFirmware.Fastboot.ParseEnv

/-!
# The two passes over an environment text

`saveenv_to_ptn` lets `parse_env` validate the text before a second pass saves
it.  The first pass is meant to leave the text unchanged.  It does, and the
second pass then performs what the first has validated, unless the text has an
escaped line end in a value, which is rewritten in both passes.
-/

namespace TateFirmware.Fastboot

open Support LibGeneric

/-! ## What a pass validates and touches -/

/-- The indices of the buffer that the loop body reads or writes at index `i`
when nothing is saved. -/
def charAccesses (i : ℕ) (st : ParseState) : List ℤ :=
  (i : ℤ) ::
    if st.var.isSome && st.varEnd.isSome && st.val.isSome &&
        st.valEnd.isNone && isCrLf (st.buff.cell i) then
      (i - 1 : ℤ) ::
        if st.buff.cell (i - 1) = ch '\\' then
          (if st.buff.cell i = ch '\r' then [(i + 1 : ℤ)] else []) ++
            [(i : ℤ), (i - 1 : ℤ)]
        else []
    else []

/-- The indices accessed in the last `n` rounds of the loop. -/
def loopAccesses (size : ℕ) : ℕ → ParseState → List ℤ
  | 0, _ => []
  | n + 1, st =>
      charAccesses (size - (n + 1)) st ++
        (parseBody false size (size - (n + 1)) st).elim []
          (loopAccesses size n)

/-- The state with the end of the text marked and no operation performed. -/
def ParseState.marked (size : ℕ) (st : ParseState) : ParseState :=
  { st with buff := st.buff.store size 0, updates := [] }

/-- The operations that a pass which does not save validates: those the loop
body, and the corner case behind the loop, would perform in the same state. -/
def loopOperations (size : ℕ) : ℕ → ParseState → List EnvUpdate
  | 0, st => (parseTrailing true size (st.marked size)).updates
  | n + 1, st =>
      (parseBody true size (size - (n + 1)) (st.marked size)).elim []
          ParseState.updates ++
        (parseBody false size (size - (n + 1)) st).elim []
          (loopOperations size n)

/-- What the comments on `parse_env` and `saveenv_to_ptn` promise. -/
structure ValidatesOnly (size : ℕ) (errString : List UInt8)
    (buff : TrackedMemory UInt8) : Prop where
  unchanged : (parseEnv false size errString buff).buff.cell = buff.cell
  accesses : ∀ j ∈ loopAccesses size size (Phase.blank.state 0 buff []),
    0 ≤ j ∧ j < size
  performed : (parseEnv true size errString
      (parseEnv false size errString buff).buff).updates =
    loopOperations size size (Phase.blank.state 0 buff [])

/-! ## Escaped line ends -/

/-- The line that ends at `i` has a backslash in front of its end, and at
least two words. -/
def EscapedLineEnd (text : Memory UInt8) (i : ℕ) : Prop :=
  isCrLf (text i) = true ∧ text (i - 1) = ch '\\' ∧
    ∃ p q r, p < q ∧ q < r ∧ r < i ∧
      (∀ j, p ≤ j → j < i → isCrLf (text j) = false) ∧
      isSpaceTab (text p) = false ∧ isSpaceTab (text q) = true ∧
      isSpaceTab (text r) = false

/-- No line end of the text is escaped. -/
def EscapeFree (size : ℕ) (text : Memory UInt8) : Prop :=
  ∀ i < size, ¬ EscapedLineEnd text i

/-- The bytes of the line in front of `i` are blank. -/
def BlankBefore (text : Memory UInt8) (i : ℕ) : Prop :=
  ∀ j < i, (∀ k, j ≤ k → k < i → isCrLf (text k) = false) →
    isSpaceTab (text j) = true

/-- The name at `var` starts the line, which goes on in front of `i`. -/
structure NameAt (text : Memory UInt8) (i var : ℕ) : Prop where
  lt : var < i
  start : isSpaceTab (text var) = false
  before : BlankBefore text var
  line : ∀ j, var ≤ j → j < i → isCrLf (text j) = false

/-- The phase of the parser in front of index `i` of the text. -/
def Phase.At (text : Memory UInt8) (i : ℕ) : Phase → Prop
  | .blank => BlankBefore text i
  | .name var =>
      NameAt text i var ∧
        ∀ j, var ≤ j → j < i → isSpaceTab (text j) = false
  | .gap var varEnd =>
      NameAt text i var ∧ var < varEnd ∧ varEnd < i ∧
        (∀ j, var ≤ j → j < varEnd → isSpaceTab (text j) = false) ∧
        ∀ j, varEnd ≤ j → j < i → isSpaceTab (text j) = true
  | .value var varEnd val =>
      NameAt text i var ∧ var < varEnd ∧ varEnd < val ∧ val < i ∧
        isSpaceTab (text varEnd) = true ∧ isSpaceTab (text val) = false

section At

variable {text : Memory UInt8} {i : ℕ}

theorem NameAt.succ {var : ℕ} (h : NameAt text i var)
    (hline : isCrLf (text i) = false) : NameAt text (i + 1) var where
  lt := by have := h.lt; omega
  start := h.start
  before := h.before
  line := by
    intro j hlo hhi
    by_cases hj : j < i
    · exact h.line j hlo hj
    · rwa [show j = i by omega]

/-- A name that starts the line starts at its first byte that is not
blank. -/
theorem NameAt.le {var p : ℕ} (h : NameAt text i var)
    (hstart : isSpaceTab (text p) = false)
    (hline : ∀ j, p ≤ j → j < i → isCrLf (text j) = false) : var ≤ p := by
  by_contra hlt
  have hvar := h.lt
  have hblank := h.before p (by omega) fun k hlo hhi =>
    hline k hlo (by omega)
  rw [hblank] at hstart
  cases hstart

theorem blank_at_lineEnd (h : isCrLf (text i) = true) :
    Phase.blank.At text (i + 1) := by
  intro j hj hline
  have hend := hline i (by omega) (by omega)
  rw [h] at hend
  cases hend

/-- A byte that does not end the line moves the parser on. -/
theorem Phase.At.move {ph ph' : Phase} (h : ph.At text i)
    (heffect : ph.effect i (text (i - 1)) (text i) = .move ph') :
    ph'.At text (i + 1) := by
  cases ph with
  | blank =>
      simp only [Phase.effect] at heffect
      split at heffect
      · rename_i hc
        obtain rfl := Effect.move.inj heffect
        cases hcrlf : isCrLf (text i) with
        | true => exact blank_at_lineEnd hcrlf
        | false =>
            rw [hcrlf, Bool.or_false] at hc
            intro j hj hline
            by_cases hji : j < i
            · exact h j hji fun k hlo hhi => hline k hlo (by omega)
            · rwa [show j = i by omega]
      · rename_i hc
        obtain rfl := Effect.move.inj heffect
        rw [Bool.not_eq_true, Bool.or_eq_false_iff] at hc
        refine ⟨⟨Nat.lt_succ_self i, hc.1, h, ?_⟩, ?_⟩
        · intro j hlo hhi
          rw [show j = i by omega]
          exact hc.2
        · intro j hlo hhi
          rw [show j = i by omega]
          exact hc.1
  | name var =>
      obtain ⟨hname, hword⟩ := h
      simp only [Phase.effect] at heffect
      split at heffect
      · cases heffect
      · rename_i hcrlf
        have hnext := hname.succ (Bool.not_eq_true _ ▸ hcrlf)
        split at heffect
        · rename_i hblank
          obtain rfl := Effect.move.inj heffect
          refine ⟨hnext, hname.lt, Nat.lt_succ_self i, hword, ?_⟩
          intro j hlo hhi
          rwa [show j = i by omega]
        · rename_i hblank
          obtain rfl := Effect.move.inj heffect
          refine ⟨hnext, fun j hlo hhi => ?_⟩
          by_cases hji : j < i
          · exact hword j hlo hji
          · rw [show j = i by omega]
            exact Bool.not_eq_true _ ▸ hblank
  | gap var varEnd =>
      obtain ⟨hname, hlt, hend, hword, hgap⟩ := h
      simp only [Phase.effect] at heffect
      split at heffect
      · cases heffect
      · rename_i hcrlf
        have hnext := hname.succ (Bool.not_eq_true _ ▸ hcrlf)
        split at heffect
        · rename_i hblank
          obtain rfl := Effect.move.inj heffect
          refine ⟨hnext, hlt, by omega, hword, fun j hlo hhi => ?_⟩
          by_cases hji : j < i
          · exact hgap j hlo hji
          · rwa [show j = i by omega]
        · rename_i hblank
          obtain rfl := Effect.move.inj heffect
          exact ⟨hnext, hlt, hend, Nat.lt_succ_self i,
            hgap varEnd le_rfl hend, Bool.not_eq_true _ ▸ hblank⟩
  | value var varEnd val =>
      obtain ⟨hname, hlt, hval, hend, hblank, hstart⟩ := h
      simp only [Phase.effect] at heffect
      split at heffect
      · split at heffect <;> cases heffect
      · rename_i hcrlf
        obtain rfl := Effect.move.inj heffect
        exact ⟨hname.succ (Bool.not_eq_true _ ▸ hcrlf), hlt, hval, by omega,
          hblank, hstart⟩

/-- Every other effect is that of a line end. -/
theorem Phase.isCrLf_of_effect {ph : Phase}
    (heffect : ∀ ph', ph.effect i (text (i - 1)) (text i) ≠ .move ph') :
    isCrLf (text i) = true := by
  by_contra hcrlf
  rw [Bool.not_eq_true] at hcrlf
  cases ph <;> simp only [Phase.effect, hcrlf] at heffect
  · split at heffect <;> exact heffect _ rfl
  · simp only [Bool.false_eq_true, if_false] at heffect
    split at heffect <;> exact heffect _ rfl
  · simp only [Bool.false_eq_true, if_false] at heffect
    split at heffect <;> exact heffect _ rfl
  · exact heffect _ rfl

/-- The parser takes a byte for an escaped line end exactly if it is one. -/
theorem Phase.At.escape_iff {ph : Phase} (h : ph.At text i) :
    ph.effect i (text (i - 1)) (text i) = .escape ↔
      EscapedLineEnd text i := by
  constructor
  · intro heffect
    have hcrlf : isCrLf (text i) = true :=
      Phase.isCrLf_of_effect fun ph' hmove => by
        rw [heffect] at hmove
        cases hmove
    cases ph with
    | blank => simp [Phase.effect, hcrlf] at heffect
    | name var => simp [Phase.effect, hcrlf] at heffect
    | gap var varEnd => simp [Phase.effect, hcrlf] at heffect
    | value var varEnd val =>
        obtain ⟨hname, hlt, hval, hend, hblank, hstart⟩ := h
        have hprev : text (i - 1) = ch '\\' := by
          by_contra hprev
          simp [Phase.effect, hcrlf, hprev] at heffect
        exact ⟨hcrlf, hprev, var, varEnd, val, hlt, hval, hend, hname.line,
          hname.start, hblank, hstart⟩
  · rintro ⟨hcrlf, hprev, p, q, r, hpq, hqr, hri, hline, hp, hq, hr⟩
    cases ph with
    | blank =>
        have hblank := h p (by omega) hline
        rw [hp] at hblank
        cases hblank
    | name var =>
        obtain ⟨hname, hword⟩ := h
        have hle := hname.le hp hline
        have hfalse := hword q (by omega) (by omega)
        rw [hq] at hfalse
        cases hfalse
    | gap var varEnd =>
        obtain ⟨hname, hlt, hend, hword, hgap⟩ := h
        have hle := hname.le hp hline
        -- the second word is in front of the gap, and so is the blank
        have hrend : r < varEnd := by
          by_contra hge
          have hblank := hgap r (by omega) hri
          rw [hr] at hblank
          cases hblank
        have hfalse := hword q (by omega) (by omega)
        rw [hq] at hfalse
        cases hfalse
    | value var varEnd val => simp [Phase.effect, hcrlf, hprev]

end At

/-! ## The text with a name or value marked -/

/-- The first byte of the text that the parser will still look at. -/
def Phase.start (i : ℕ) : Phase → ℕ
  | .blank => i
  | .name var => var
  | .gap var _ => var
  | .value var _ _ => var

/-- From `start` on the text is as it was, with its end marked. -/
def MarkedFrom (start size : ℕ) (buff buff' : TrackedMemory UInt8) : Prop :=
  ∀ j, start ≤ j → buff'.cell j = (buff.store size 0).cell j

section Marks

variable {size i start : ℕ} {buff buff' : TrackedMemory UInt8} {ph : Phase}

theorem MarkedFrom.mono {start' : ℕ} (h : MarkedFrom start size buff buff')
    (hle : start ≤ start') : MarkedFrom start' size buff buff' :=
  fun j hj => h j (hle.trans hj)

theorem MarkedFrom.store (h : MarkedFrom start size buff buff') (p : ℕ)
    (c : UInt8) :
    ∀ j, start ≤ j →
      (buff'.store p c).cell j = ((buff.store size 0).store p c).cell j := by
  intro j hj
  by_cases hjp : j = p
  · subst hjp
    simp
  · simp only [TrackedMemory.store_cell]
    rw [Memory.store_of_ne _ hjp, Memory.store_of_ne _ hjp]
    exact h j hj

theorem strAt_congr {p : ℕ} {a b : TrackedMemory UInt8}
    (h : ∀ j, p ≤ j → a.cell j = b.cell j) :
    strAt a size p = strAt b size p := by
  unfold strAt Memory.read
  congr 1
  apply List.map_congr_left
  intro k _
  exact h _ (Nat.le_add_right p k)

/-- A parser that has moved on does not look further back. -/
theorem Phase.start_le_of_move {ph' : Phase} {prev c : UInt8}
    (heffect : ph.effect i prev c = .move ph') :
    ph.start i ≤ ph'.start (i + 1) := by
  cases ph <;> simp only [Phase.effect] at heffect
  · split at heffect <;> obtain rfl := Effect.move.inj heffect
    · exact Nat.le_succ i
    · exact le_rfl
  · split at heffect
    · cases heffect
    · split at heffect <;> obtain rfl := Effect.move.inj heffect <;>
        exact le_rfl
  · split at heffect
    · cases heffect
    · split at heffect <;> obtain rfl := Effect.move.inj heffect <;>
        exact le_rfl
  · split at heffect
    · split at heffect <;> cases heffect
    · obtain rfl := Effect.move.inj heffect
      exact le_rfl

/-- An effect works on the line the parser is in. -/
theorem Phase.At.effect_cases {text : Memory UInt8} (h : ph.At text i)
    (prev c : UInt8) :
    (∃ ph', ph.effect i prev c = .move ph') ∨
      (ph.effect i prev c = .unset (ph.start i) ∧ ph.start i < i) ∨
      (∃ varEnd val, ph.effect i prev c = .set (ph.start i) varEnd val ∧
        ph.start i < varEnd ∧ varEnd < val ∧ val < i) ∨
      ph.effect i prev c = .escape := by
  cases ph with
  | blank =>
      simp only [Phase.effect]
      split <;> exact Or.inl ⟨_, rfl⟩
  | name var =>
      simp only [Phase.effect]
      split
      · exact Or.inr (Or.inl ⟨rfl, h.1.lt⟩)
      · split <;> exact Or.inl ⟨_, rfl⟩
  | gap var varEnd =>
      simp only [Phase.effect]
      split
      · exact Or.inr (Or.inl ⟨rfl, h.1.lt⟩)
      · split <;> exact Or.inl ⟨_, rfl⟩
  | value var varEnd val =>
      obtain ⟨-, hlt, hval, hend, -⟩ := h
      simp only [Phase.effect]
      split
      · split
        · exact Or.inr (Or.inr (Or.inr rfl))
        · exact Or.inr (Or.inr (Or.inl ⟨varEnd, val, rfl, hlt, hval, hend⟩))
      · exact Or.inl ⟨_, rfl⟩

theorem Phase.At.start_le {text : Memory UInt8} (h : ph.At text i) :
    ph.start i ≤ i := by
  cases ph with
  | blank => exact le_rfl
  | name var => exact h.1.lt.le
  | gap var varEnd => exact h.1.lt.le
  | value var varEnd val => exact h.1.lt.le

/-- The marks in front of the line do not change an effect. -/
theorem Phase.At.effect_eq (h : ph.At buff.cell i) (hi : i < size)
    (hmarked : MarkedFrom (ph.start i) size buff buff') :
    ph.effect i (buff'.cell (i - 1)) (buff'.cell i) =
      ph.effect i (buff.cell (i - 1)) (buff.cell i) := by
  have hcell : ∀ j, ph.start i ≤ j → j < size →
      buff'.cell j = buff.cell j := by
    intro j hj hlt
    rw [hmarked j hj]
    exact Memory.store_of_ne _ (by omega)
  have hc := hcell i h.start_le hi
  cases ph with
  | blank => simp only [Phase.effect, hc]
  | name var => simp only [Phase.effect, hc]
  | gap var varEnd => simp only [Phase.effect, hc]
  | value var varEnd val =>
      have hvar := h.1.lt
      have hprev := hcell (i - 1) (by simp only [Phase.start]; omega) (by omega)
      simp only [Phase.effect, hc, hprev]

theorem Phase.At.effect_marked (h : ph.At buff.cell i) (hi : i < size) :
    ph.effect i ((buff.store size 0).cell (i - 1))
        ((buff.store size 0).cell i) =
      ph.effect i (buff.cell (i - 1)) (buff.cell i) :=
  h.effect_eq hi fun _ _ => rfl

/-- Unsetting a variable is the same operation with other marks in front of
the line. -/
theorem unset_save_eq {var : ℕ} (hmarked : MarkedFrom var size buff buff')
    (hlt : var < i) :
    ((Effect.unset var).save size i buff').2 =
        ((Effect.unset var).save size i (buff.store size 0)).2 ∧
      MarkedFrom (i + 1) size buff
        ((Effect.unset var).save size i buff').1 := by
  refine ⟨?_, fun j hj => ?_⟩
  · simp only [Effect.save]
    rw [strAt_congr (hmarked.store i 0)]
  · simp only [Effect.save, TrackedMemory.store_cell]
    rw [Memory.store_of_ne _ (by omega)]
    exact hmarked j (by omega)

/-- The same for setting a variable. -/
theorem set_save_eq {var varEnd val : ℕ}
    (hmarked : MarkedFrom var size buff buff') (hvar : var < varEnd)
    (hval : varEnd < val) (hlt : val < i) :
    ((Effect.set var varEnd val).save size i buff').2 =
        ((Effect.set var varEnd val).save size i (buff.store size 0)).2 ∧
      MarkedFrom (i + 1) size buff
        ((Effect.set var varEnd val).save size i buff').1 := by
  have hcells : ∀ j, var ≤ j → ((buff'.store varEnd 0).store i 0).cell j =
      (((buff.store size 0).store varEnd 0).store i 0).cell j := by
    intro j hj
    by_cases hji : j = i
    · subst hji
      simp
    · simp only [TrackedMemory.store_cell]
      rw [Memory.store_of_ne _ hji, Memory.store_of_ne _ hji]
      exact hmarked.store varEnd 0 j hj
  refine ⟨?_, fun j hj => ?_⟩
  · simp only [Effect.save]
    rw [strAt_congr hcells, strAt_congr fun j hj => hcells j (by omega)]
  · simp only [Effect.save, TrackedMemory.store_cell]
    rw [Memory.store_of_ne _ (by omega), Memory.store_of_ne _ (by omega)]
    exact hmarked j (by omega)

/-- The corner case behind the loop, with other marks in front of the last
line. -/
theorem parseTrailing_updates {text : Memory UInt8} (h : ph.At text size)
    (hmarked : MarkedFrom (ph.start size) size buff buff') (sets sets' : ℕ)
    (updates : List EnvUpdate) :
    (parseTrailing true size (ph.state sets buff' updates)).updates =
      updates ++ (parseTrailing true size
        ((ph.state sets' buff []).marked size)).updates := by
  cases ph with
  | blank => simp [parseTrailing, Phase.state, ParseState.marked]
  | name var =>
      change MarkedFrom var size buff buff' at hmarked
      simp only [parseTrailing, Phase.state, ParseState.marked, saveEnv,
        Option.elim_none, Option.map_none, if_true, List.nil_append]
      rw [strAt_congr hmarked]
  | gap var varEnd =>
      change MarkedFrom var size buff buff' at hmarked
      simp only [parseTrailing, Phase.state, ParseState.marked, saveEnv,
        Option.elim_some, Option.map_none, if_true, List.nil_append, endAt]
      rw [strAt_congr (hmarked.store varEnd 0)]
  | value var varEnd val =>
      obtain ⟨-, hlt, hval, -⟩ := h
      change MarkedFrom var size buff buff' at hmarked
      simp only [parseTrailing, Phase.state, ParseState.marked, saveEnv,
        Option.elim_some, Option.map_some, if_true, List.nil_append, endAt]
      rw [strAt_congr (hmarked.store varEnd 0),
        strAt_congr fun j hj => hmarked.store varEnd 0 j (by omega)]

end Marks

/-! ## A text without escaped line ends -/

section Free

variable {size : ℕ} {buff : TrackedMemory UInt8}

/-- A byte that is not an escaped line end is all the loop body looks at, but
for the byte in front of it in a value. -/
theorem charAccesses_within {i sets : ℕ} {ph : Phase}
    (h : ph.At buff.cell i) (hi : i < size)
    (hescape : ¬ EscapedLineEnd buff.cell i) :
    ∀ j ∈ charAccesses i (ph.state sets buff []), 0 ≤ j ∧ j < size := by
  have hfirst : (0 : ℤ) ≤ i ∧ (i : ℤ) < size := by omega
  intro j hj
  cases ph with
  | value var varEnd val =>
      have hvar := h.1.lt
      have hnot := mt h.escape_iff.mp hescape
      cases hcrlf : isCrLf (buff.cell i) with
      | true =>
          simp only [Phase.effect, hcrlf, if_true] at hnot
          have hprev : ¬ buff.cell (i - 1) = ch '\\' := fun hprev =>
            hnot (if_pos hprev)
          simp [charAccesses, Phase.state, hcrlf, hprev] at hj
          rcases hj with rfl | rfl
          · exact hfirst
          · omega
      | false =>
          simp [charAccesses, Phase.state, hcrlf] at hj
          obtain rfl := hj
          exact hfirst
  | _ =>
      simp [charAccesses, Phase.state] at hj
      obtain rfl := hj
      exact hfirst

/-- What the two passes do with the last `n` bytes of the text. -/
structure SamePasses (size n sets : ℕ) (ph : Phase)
    (buff buff' : TrackedMemory UInt8) (updates : List EnvUpdate) : Prop where
  check : ∃ ph' sets', parseLoop false size n (ph.state sets buff []) =
    some (Phase.state ph' sets' buff [])
  accesses : ∀ j ∈ loopAccesses size n (ph.state sets buff []),
    0 ≤ j ∧ j < size
  save : ∃ st, parseLoop true size n (ph.state sets buff' updates) = some st ∧
    (parseTrailing true size st).updates =
      updates ++ loopOperations size n (ph.state sets buff [])

theorem samePasses_of_step {n i sets sets' : ℕ} {ph ph' : Phase}
    {buff' buff'' : TrackedMemory UInt8} {updates ops : List EnvUpdate}
    (hi : i = size - (n + 1))
    (haccesses : ∀ j ∈ charAccesses i (ph.state sets buff []),
      0 ≤ j ∧ j < size)
    (hcheck : parseBody false size i (ph.state sets buff []) =
      some (ph'.state sets' buff []))
    (hsave : parseBody true size i (ph.state sets buff' updates) =
      some (ph'.state sets' buff'' (updates ++ ops)))
    (hops : ∃ marked, parseBody true size i
      ((ph.state sets buff []).marked size) =
        some (ph'.state sets' marked ops))
    (hrest : SamePasses size n sets' ph' buff buff'' (updates ++ ops)) :
    SamePasses size (n + 1) sets ph buff buff' updates where
  check := by
    obtain ⟨ph'', sets'', hloop⟩ := hrest.check
    refine ⟨ph'', sets'', ?_⟩
    rw [parseLoop_succ, ← hi, hcheck]
    exact hloop
  accesses := by
    intro j hj
    rw [loopAccesses, ← hi, hcheck] at hj
    rcases List.mem_append.mp hj with hj | hj
    · exact haccesses j hj
    · exact hrest.accesses j hj
  save := by
    obtain ⟨st, hloop, hupdates⟩ := hrest.save
    obtain ⟨marked, hmarked⟩ := hops
    have hstate : (ph'.state sets' marked ops).updates = ops := by
      cases ph' <;> rfl
    refine ⟨st, ?_, ?_⟩
    · rw [parseLoop_succ, ← hi, hsave]
      exact hloop
    · rw [hupdates, loopOperations, ← hi, hmarked, hcheck, List.append_assoc,
        Option.elim_some, Option.elim_some, hstate]

theorem marked_state (ph : Phase) (sets : ℕ) :
    (ph.state sets buff []).marked size =
      ph.state sets (buff.store size 0) [] := by
  cases ph <;> rfl

/-- A byte that only moves the parser on. -/
theorem samePasses_of_move {n i sets : ℕ} {ph ph' : Phase}
    {buff' : TrackedMemory UInt8} {updates : List EnvUpdate}
    (hi : i = size - (n + 1)) (h : ph.At buff.cell i) (hlt : i < size)
    (hmarked : MarkedFrom (ph.start i) size buff buff')
    (hescape : ¬ EscapedLineEnd buff.cell i)
    (heffect : ph.effect i (buff.cell (i - 1)) (buff.cell i) = .move ph')
    (hrest : SamePasses size n sets ph' buff buff' updates) :
    SamePasses size (n + 1) sets ph buff buff' updates := by
  have hcheck := parseBody_state false size i ph sets buff []
  have hsave := parseBody_state true size i ph sets buff' updates
  have hghost := parseBody_state true size i ph sets (buff.store size 0) []
  rw [heffect] at hcheck
  rw [h.effect_eq hlt hmarked, heffect] at hsave
  rw [h.effect_marked hlt, heffect, ← marked_state] at hghost
  have hsave' : parseBody true size i (ph.state sets buff' updates) =
      some (ph'.state sets buff' (updates ++ [])) := by
    rw [List.append_nil]
    exact hsave
  exact samePasses_of_step hi (charAccesses_within h hlt hescape) hcheck
    hsave' ⟨_, hghost⟩ (by rwa [List.append_nil])

/-- A line end that saves a variable. -/
theorem samePasses_of_saved {n i sets : ℕ} {ph : Phase} {e : Effect}
    {buff' : TrackedMemory UInt8} {updates : List EnvUpdate}
    (hi : i = size - (n + 1)) (h : ph.At buff.cell i) (hlt : i < size)
    (hmarked : MarkedFrom (ph.start i) size buff buff')
    (hescape : ¬ EscapedLineEnd buff.cell i)
    (heffect : ph.effect i (buff.cell (i - 1)) (buff.cell i) = e)
    (hafter : ∀ save buff updates, ph.after save size i sets buff updates e =
      Phase.blank.state (sets + 1)
        (if save then e.save size i buff else (buff, [])).1
        (updates ++ (if save then e.save size i buff else (buff, [])).2))
    (hops : (e.save size i buff').2 =
      (e.save size i (buff.store size 0)).2)
    (hrest : SamePasses size n (sets + 1) .blank buff
      (e.save size i buff').1 (updates ++ (e.save size i buff').2)) :
    SamePasses size (n + 1) sets ph buff buff' updates := by
  have hcheck := parseBody_state false size i ph sets buff []
  have hsave := parseBody_state true size i ph sets buff' updates
  have hghost := parseBody_state true size i ph sets (buff.store size 0) []
  rw [heffect, hafter] at hcheck
  rw [h.effect_eq hlt hmarked, heffect, hafter] at hsave
  rw [h.effect_marked hlt, heffect, ← marked_state, hafter, if_pos rfl, List.nil_append,
    ← hops] at hghost
  exact samePasses_of_step hi (charAccesses_within h hlt hescape) hcheck hsave
    ⟨_, hghost⟩ hrest

/-- Without escaped line ends the first pass leaves the text alone, and the
second does what the first has validated. -/
theorem samePasses (hfree : EscapeFree size buff.cell) {n : ℕ}
    (hn : n ≤ size) {ph : Phase} {sets : ℕ} {buff' : TrackedMemory UInt8}
    {updates : List EnvUpdate} (h : ph.At buff.cell (size - n))
    (hmarked : MarkedFrom (ph.start (size - n)) size buff buff') :
    SamePasses size n sets ph buff buff' updates := by
  induction n generalizing ph sets buff' updates with
  | zero =>
      exact
        { check := ⟨ph, sets, rfl⟩
          accesses := fun j hj => absurd hj List.not_mem_nil
          save := ⟨_, rfl,
            parseTrailing_updates h hmarked sets sets updates⟩ }
  | succ n ih =>
      generalize hi : size - (n + 1) = i at h hmarked
      have hlt : i < size := by omega
      have hnext : size - n = i + 1 := by omega
      rw [hnext] at ih
      have hescape := hfree i hlt
      have hcrlf : (∀ ph', ph.effect i (buff.cell (i - 1)) (buff.cell i) ≠
          .move ph') → Phase.blank.At buff.cell (i + 1) := fun hno =>
        blank_at_lineEnd (Phase.isCrLf_of_effect hno)
      rcases h.effect_cases (buff.cell (i - 1)) (buff.cell i) with
        ⟨ph', heffect⟩ | ⟨heffect, hvar⟩ |
          ⟨varEnd, val, heffect, hvar, hval, hend⟩ | heffect
      · exact samePasses_of_move hi.symm h hlt hmarked hescape heffect
          (ih (by omega) (h.move heffect)
            (hmarked.mono (Phase.start_le_of_move heffect)))
      · obtain ⟨hops, hmarked'⟩ := unset_save_eq hmarked hvar
        exact samePasses_of_saved hi.symm h hlt hmarked hescape heffect
          (fun _ _ _ => rfl) hops
          (ih (by omega) (hcrlf (by simp [heffect])) hmarked')
      · obtain ⟨hops, hmarked'⟩ := set_save_eq hmarked hvar hval hend
        exact samePasses_of_saved hi.symm h hlt hmarked hescape heffect
          (fun _ _ _ => rfl) hops
          (ih (by omega) (hcrlf (by simp [heffect])) hmarked')
      · exact absurd (h.escape_iff.mp heffect) hescape

end Free

/-! ## A text with escaped line ends -/

section Escaped

variable {size : ℕ}

/-- The text with an escaped line end at `i` rewritten. -/
def unescaped (i : ℕ) (buff : TrackedMemory UInt8) : TrackedMemory UInt8 :=
  ((if buff.cell i = ch '\r' ∧ buff.cell (i + 1) = ch '\n' then
      buff.store (i + 1) (ch ' ')
    else buff).store i (ch ' ')).store (i - 1) (ch ' ')

theorem unescape_state (i : ℕ) (ph : Phase) (sets : ℕ)
    (buff : TrackedMemory UInt8) :
    unescape i (ph.state sets buff []) =
      ph.state sets (unescaped i buff) [] := by
  cases ph <;> rfl

theorem store_blank {m : Memory UInt8} {j : ℕ} (p : ℕ)
    (h : m j = ch ' ') : m.store p (ch ' ') j = ch ' ' := by
  by_cases hj : j = p
  · rw [hj, Memory.store_same]
  · rwa [Memory.store_of_ne _ hj]

theorem unescaped_blank {buff : TrackedMemory UInt8} {j : ℕ} (i : ℕ)
    (h : buff.cell j = ch ' ') : (unescaped i buff).cell j = ch ' ' := by
  unfold unescaped
  apply store_blank
  apply store_blank
  split
  · exact store_blank _ h
  · exact h

/-- A pass that does not save stores blanks only. -/
theorem parseBody_blanks (size i : ℕ) (ph : Phase) (sets : ℕ)
    (buff : TrackedMemory UInt8) :
    ∃ ph' sets' buff', parseBody false size i (ph.state sets buff []) =
        some (Phase.state ph' sets' buff' []) ∧
      ∀ j, buff.cell j = ch ' ' → buff'.cell j = ch ' ' := by
  rw [parseBody_state]
  cases ph.effect i (buff.cell (i - 1)) (buff.cell i) with
  | move ph' => exact ⟨ph', sets, buff, rfl, fun _ h => h⟩
  | unset var => exact ⟨.blank, sets + 1, buff, rfl, fun _ h => h⟩
  | set var varEnd val => exact ⟨.blank, sets + 1, buff, rfl, fun _ h => h⟩
  | escape =>
      exact ⟨ph, sets, unescaped i buff, congrArg some (unescape_state _ _ _ _),
        fun _ h => unescaped_blank i h⟩

theorem parseLoop_blanks (size n : ℕ) (ph : Phase) (sets : ℕ)
    (buff : TrackedMemory UInt8) :
    ∃ st, parseLoop false size n (ph.state sets buff []) = some st ∧
      ∀ j, buff.cell j = ch ' ' → st.buff.cell j = ch ' ' := by
  induction n generalizing ph sets buff with
  | zero => exact ⟨_, rfl, fun j h => by cases ph <;> exact h⟩
  | succ n ih =>
      obtain ⟨ph', sets', buff', hbody, hkeep⟩ :=
        parseBody_blanks size (size - (n + 1)) ph sets buff
      obtain ⟨st, hloop, hst⟩ := ih ph' sets' buff'
      refine ⟨st, ?_, fun j h => hst j (hkeep j h)⟩
      rw [parseLoop_succ, hbody]
      exact hloop

/-- The first escaped line end is rewritten. -/
theorem parseLoop_rewrites {n : ℕ} (hn : n ≤ size) {ph : Phase} {sets : ℕ}
    {buff : TrackedMemory UInt8} (h : ph.At buff.cell (size - n))
    (hescaped : ∃ e, size - n ≤ e ∧ e < size ∧ EscapedLineEnd buff.cell e) :
    ∃ st j, parseLoop false size n (ph.state sets buff []) = some st ∧
      buff.cell j = ch '\\' ∧ st.buff.cell j = ch ' ' := by
  induction n generalizing ph sets with
  | zero =>
      obtain ⟨e, hlo, hhi, -⟩ := hescaped
      omega
  | succ n ih =>
      generalize hi : size - (n + 1) = i at h hescaped
      have hnext : size - n = i + 1 := by omega
      rw [hnext] at ih
      rw [parseLoop_succ, hi, parseBody_state]
      by_cases hline : EscapedLineEnd buff.cell i
      · rw [h.escape_iff.mpr hline]
        obtain ⟨st, hloop, hst⟩ :=
          parseLoop_blanks size n ph sets (unescaped i buff)
        refine ⟨st, i - 1, ?_, hline.2.1, hst _ ?_⟩
        · rw [← hloop, ← unescape_state]
          rfl
        · simp [unescaped]
      · have hlater : ∃ e, i + 1 ≤ e ∧ e < size ∧
            EscapedLineEnd buff.cell e := by
          obtain ⟨e, hlo, hhi, he⟩ := hescaped
          refine ⟨e, ?_, hhi, he⟩
          by_contra hle
          exact hline ((show e = i by omega) ▸ he)
        have hlineEnd : (∀ ph', ph.effect i (buff.cell (i - 1))
            (buff.cell i) ≠ .move ph') → Phase.blank.At buff.cell (i + 1) :=
          fun hno => blank_at_lineEnd (Phase.isCrLf_of_effect hno)
        cases heffect : ph.effect i (buff.cell (i - 1)) (buff.cell i) with
        | move ph' => exact ih (by omega) (h.move heffect) hlater
        | unset var =>
            exact ih (by omega) (hlineEnd (by simp [heffect])) hlater
        | set var varEnd val =>
            exact ih (by omega) (hlineEnd (by simp [heffect])) hlater
        | escape => exact absurd (h.escape_iff.mp heffect) hline

end Escaped

/-! ## The promise -/

theorem blank_at_zero (text : Memory UInt8) : Phase.blank.At text 0 :=
  fun _ hj => absurd hj (Nat.not_lt_zero _)

/-- What a pass leaves behind is what its loop and the corner case do. -/
theorem parseEnv_of_loop {save : Bool} {size : ℕ} (errString : List UInt8)
    {buff : TrackedMemory UInt8} {st : ParseState}
    (hloop : parseLoop save size size (Phase.blank.state 0
      (if save then buff.store size 0 else buff) []) = some st) :
    (parseEnv save size errString buff).buff =
        (parseTrailing save size st).buff ∧
      (parseEnv save size errString buff).updates =
        (parseTrailing save size st).updates := by
  have hstart : (⟨none, none, none, none, 0,
      if save then buff.store size 0 else buff, []⟩ : ParseState) =
      Phase.blank.state 0 (if save then buff.store size 0 else buff) [] := rfl
  unfold parseEnv
  dsimp only
  rw [hstart, hloop]
  dsimp only
  split <;> exact ⟨rfl, rfl⟩

theorem parseTrailing_buff (size : ℕ) (st : ParseState) :
    (parseTrailing false size st).buff = st.buff := by
  unfold parseTrailing
  split <;> rfl

/-- For every text: the pass that validates leaves it unchanged, accesses
nothing else, and is followed by a pass that performs exactly what has been
validated, if and only if no line end of the text is escaped. -/
theorem validatesOnly_iff (size : ℕ) (errString : List UInt8)
    (buff : TrackedMemory UInt8) :
    ValidatesOnly size errString buff ↔ EscapeFree size buff.cell := by
  constructor
  · intro hvalidates e he hescaped
    obtain ⟨st, j, hloop, hbefore, hafter⟩ :=
      @parseLoop_rewrites size size le_rfl .blank 0 buff
        (by rw [Nat.sub_self]; exact blank_at_zero _)
        ⟨e, by omega, he, hescaped⟩
    obtain ⟨hbuff, -⟩ := @parseEnv_of_loop false _ errString _ _ hloop
    have hsame := congrFun hvalidates.unchanged j
    rw [hbuff, parseTrailing_buff, hafter, hbefore] at hsame
    exact absurd hsame (by decide)
  · intro hfree
    have hpasses : SamePasses size size 0 .blank buff (buff.store size 0) [] :=
      samePasses hfree le_rfl (by rw [Nat.sub_self]; exact blank_at_zero _)
        fun _ _ => rfl
    obtain ⟨ph', sets', hcheck⟩ := hpasses.check
    obtain ⟨st, hsave, hupdates⟩ := hpasses.save
    obtain ⟨hbuff, -⟩ := @parseEnv_of_loop false _ errString _ _ hcheck
    have hsame : (parseEnv false size errString buff).buff = buff := by
      rw [hbuff, parseTrailing_buff]
      cases ph' <;> rfl
    obtain ⟨-, hperformed⟩ := @parseEnv_of_loop true _ errString _ _ hsave
    exact
      { unchanged := by rw [hsame]
        accesses := hpasses.accesses
        performed := by rw [hsame, hperformed, hupdates, List.nil_append] }

/-- A value that goes on in the next line is rewritten while it is
validated. -/
theorem not_validatesOnly :
    ¬ ∀ (size : ℕ) (errString : List UInt8) (buff : TrackedMemory UInt8),
      ValidatesOnly size errString buff := by
  intro hclaim
  have hsame := congrFun (hclaim 7 [] ⟨Memory.ofList 0 (text "a b\\\nc\n"),
    8⟩).unchanged 3
  exact absurd hsame (by decide)

end TateFirmware.Fastboot
