import TateFirmware.Cli.LineEdit
import TateFirmware.Support.Cursor

/-!
# The line editor

The purpose of the loop of `cread_line` is an editor of a line at a cursor.  The
editor is written here over the two lists before and after the cursor, and the loop
is shown to carry it out in its buffer.  The editor has the capacity and the keys as
parameters: `full` says which lines have no room for another character, `keyOf` what
a key does.
-/

namespace TateFirmware.Cli

open LibGeneric Support

structure Editor where
  cursor : Cursor UInt8
  insert : Bool
  esc : List UInt8
  hist : History

namespace Editor

/-- The line that is edited. -/
def text (e : Editor) : List UInt8 := e.cursor.text

/-- The editor on the empty line. -/
def start (hist : History) : Editor := ⟨Cursor.empty, true, [], hist⟩

section Keys

variable (full : List UInt8 → Bool) (keyOf : UInt8 → KeyCase)

def addChar (ichar : UInt8) (e : Editor) : Editor :=
  if (e.insert ∨ e.cursor.after = []) ∧ full e.text then e
  else if e.insert then { e with cursor := e.cursor.insert ichar }
  else { e with cursor := e.cursor.overwrite ichar }

def addStr (str : List UInt8) (e : Editor) : Editor :=
  str.foldl (fun e ichar => addChar full ichar e) e

/-- Take a line of the history. -/
def recallLine (k : KeyCase) (e : Editor) : Editor :=
  match recallHist k e.hist with
  | (none, hist) => { e with hist := hist }
  | (some hline, hist) => { e with cursor := Cursor.atEnd hline, hist := hist }

def onKey (ichar : UInt8) (e : Editor) : Loop Editor :=
  match keyOf ichar with
  | .escape => .editing { e with esc := [ichar] }
  | .home => .editing { e with cursor := e.cursor.home }
  | .brk => .broken e
  | .forward => .editing { e with cursor := e.cursor.right }
  | .back => .editing { e with cursor := e.cursor.left }
  | .delete => .editing { e with cursor := e.cursor.delete }
  | .kill => .editing { e with cursor := e.cursor.killToEnd }
  | .toEnd => .editing { e with cursor := e.cursor.toEnd }
  | .toggle => .editing { e with insert := !e.insert }
  | .clear => .editing { e with cursor := Cursor.empty }
  | .rubout => .editing { e with cursor := e.cursor.backspace }
  | .prev => .editing (recallLine .prev e)
  | .next => .editing (recallLine .next e)
  | .char => .editing (addChar full ichar e)

/-- One key stroke. -/
def key (ichar : UInt8) (e : Editor) : Loop Editor :=
  if ichar = ch '\n' ∨ ichar = ch '\r' then .entered e
  else
    match decodeEsc e.esc ichar with
    | .saved esc => .editing { e with esc := esc }
    | .added str => .editing { addStr full str e with esc := [] }
    | .key ichar => onKey full keyOf ichar { e with esc := [] }

end Keys

end Editor

/-! ## Loops side by side -/

namespace Loop

variable {σ τ : Type*}

/-- Two loops stand at the same point, in related states. -/
def Rel (R : σ → τ → Prop) : Loop σ → Loop τ → Prop
  | .editing s, .editing t => R s t
  | .entered s, .entered t => R s t
  | .broken s, .broken t => R s t
  | _, _ => False

/-- The state of a loop. -/
def state : Loop σ → σ
  | .editing s => s
  | .entered s => s
  | .broken s => s

/-- A relation weakened by what is known of the second state. -/
theorem Rel.imp_of_state {R R' : σ → τ → Prop} {P : τ → Prop} {l : Loop σ} {m : Loop τ}
    (h : Rel R l m) (hstate : P m.state) (himp : ∀ s t, R s t → P t → R' s t) :
    Rel R' l m := by
  cases l <;> cases m <;> first
    | exact himp _ _ h hstate
    | exact h.elim

theorem Rel.of_editing {R : σ → τ → Prop} {s : σ} {m : Loop τ}
    (h : Rel R (.editing s) m) : ∃ t, m = .editing t ∧ R s t := by
  cases m with
  | editing t => exact ⟨t, rfl, h⟩
  | entered t => exact h.elim
  | broken t => exact h.elim

theorem Rel.of_entered {R : σ → τ → Prop} {s : σ} {m : Loop τ}
    (h : Rel R (.entered s) m) : ∃ t, m = .entered t ∧ R s t := by
  cases m with
  | editing t => exact h.elim
  | entered t => exact ⟨t, rfl, h⟩
  | broken t => exact h.elim

theorem Rel.to_entered {R : σ → τ → Prop} {l : Loop σ} {t : τ}
    (h : Rel R l (.entered t)) : ∃ s, l = .entered s ∧ R s t := by
  cases l with
  | editing s => exact h.elim
  | entered s => exact ⟨s, rfl, h⟩
  | broken s => exact h.elim

theorem Rel.of_broken {R : σ → τ → Prop} {s : σ} {m : Loop τ}
    (h : Rel R (.broken s) m) : ∃ t, m = .broken t ∧ R s t := by
  cases m with
  | editing t => exact h.elim
  | entered t => exact h.elim
  | broken t => exact ⟨t, rfl, h⟩

theorem run_nil (step : UInt8 → σ → Loop σ) (l : Loop σ) : run step l [] = l := by
  cases l <;> rfl

theorem run_concat (step : UInt8 → σ → Loop σ) (l : Loop σ) (keys : List UInt8)
    (c : UInt8) : run step l (keys ++ [c]) = run step (run step l keys) [c] := by
  induction keys generalizing l with
  | nil => rw [List.nil_append, run_nil]
  | cons k keys ih =>
      cases l with
      | editing s =>
          rw [List.cons_append, run, run]
          exact ih _
      | entered s => rfl
      | broken s => rfl

/-- One more key keeps a relation that a step keeps. -/
theorem Rel.run_singleton {R : σ → τ → Prop} {step : UInt8 → σ → Loop σ}
    {step' : UInt8 → τ → Loop τ} {l : Loop σ} {m : Loop τ} {c : UInt8}
    (h : Rel R l m)
    (hstep : ∀ s t, R s t → l = .editing s → m = .editing t →
      Rel R (step c s) (step' c t)) :
    Rel R (run step l [c]) (run step' m [c]) := by
  cases l with
  | editing s =>
      obtain ⟨t, rfl, hst⟩ := h.of_editing
      rw [run, run, run_nil, run_nil]
      exact hstep s t hst rfl rfl
  | entered s =>
      obtain ⟨t, rfl, hst⟩ := h.of_entered
      exact hst
  | broken s =>
      obtain ⟨t, rfl, hst⟩ := h.of_broken
      exact hst

end Loop

/-! ## The buffer carries out the editor -/

/-- The variables of `cread_line` show the editor, in a buffer of `len` bytes. -/
structure Sim (len : ℕ) (s : LineState) (e : Editor) : Prop where
  shows : Shows s.buf s.num s.eolNum e.cursor
  length : s.buf.length = len
  insert : s.insert = e.insert
  esc : s.escSave = e.esc
  hist : s.hist = e.hist

theorem cstr_patch_zero (buf : List UInt8) {l : List UInt8} (h : (0 : UInt8) ∉ l) :
    cstr (patch buf 0 (l ++ [0])) = l := by
  rw [patch, List.take_zero, List.nil_append, List.append_assoc,
    List.singleton_append, cstr_append_nul, cstr_of_notMem h]

/-- What `^P` and `^N` recall are strings. -/
theorem zero_notMem_recall (k : KeyCase) (hist : History) :
    ∀ l, (recallHist k hist).1 = some l → (0 : UInt8) ∉ l := by
  intro l hl
  unfold recallHist at hl
  split at hl
  · exact zero_notMem_histPrev hl
  · exact zero_notMem_histNext hl

/-- The lines without room for another character in a buffer of `len` bytes. -/
def fills (len : ℕ) (line : List UInt8) : Bool := len ≤ line.length

namespace Sim

variable {len : ℕ} {s : LineState} {e : Editor}

theorem end_iff (h : Sim len s e) : s.num = s.eolNum ↔ e.cursor.after = [] := by
  have hafter := h.shows.after_length
  have hle := h.shows.num_le
  rw [← List.length_eq_zero_iff]
  omega

end Sim

/-! ## Adding characters -/

theorem creadAddChar_full {len : ℕ} {s : LineState} (hlen : 0 < len)
    (hgrow : s.insert = true ∨ s.num = s.eolNum) (hfull : len ≤ s.eolNum)
    (ichar : UInt8) : creadAddChar len ichar s = s := by
  rw [creadAddChar, if_pos]
  exact ⟨hgrow, by omega⟩

theorem creadAddChar_insert {len : ℕ} {s : LineState} (hinsert : s.insert = true)
    (hle : s.num ≤ s.eolNum) (hroom : s.eolNum < len) (ichar : UInt8) :
    creadAddChar len ichar s =
      { s with
        buf := patch (memmove s.buf (s.num + 1) s.num (s.eolNum - s.num)) s.num
          [ichar]
        num := s.num + 1
        eolNum := s.eolNum + 1 } := by
  have hfull : ¬ ((s.insert = true ∨ s.num = s.eolNum) ∧ s.eolNum > len - 1) := by
    omega
  have hwlen : s.eolNum + 1 - s.num - 1 = s.eolNum - s.num := by omega
  rw [creadAddChar, if_neg hfull]
  dsimp only
  rw [if_pos (Or.inl hinsert), if_pos hinsert, hwlen]
  split
  · rfl
  · have hzero : s.eolNum - s.num = 0 := by omega
    rw [hzero, memmove_zero]

theorem creadAddChar_overwrite {len : ℕ} {s : LineState}
    (hinsert : s.insert = false) (hle : s.num ≤ s.eolNum)
    (hroom : s.num = s.eolNum → s.eolNum < len) (ichar : UInt8) :
    creadAddChar len ichar s =
      { s with
        buf := patch s.buf s.num [ichar]
        num := s.num + 1
        eolNum := max s.eolNum (s.num + 1) } := by
  have hinsert' : ¬ s.insert = true := by simp [hinsert]
  have hfull : ¬ ((s.insert = true ∨ s.num = s.eolNum) ∧ s.eolNum > len - 1) := by
    rintro ⟨hins | hend, hfull⟩
    · exact hinsert' hins
    · have := hroom hend
      omega
  have heol : (if s.insert = true ∨ s.num = s.eolNum then s.eolNum + 1
      else s.eolNum) = max s.eolNum (s.num + 1) := by
    by_cases hend : s.num = s.eolNum
    · rw [if_pos (Or.inr hend)]
      omega
    · rw [if_neg (not_or.mpr ⟨hinsert', hend⟩)]
      omega
  rw [creadAddChar, if_neg hfull]
  dsimp only
  rw [if_neg hinsert', heol]

/-- A line that a character has been added to is not empty. -/
theorem creadAddChar_pos {len : ℕ} {s : LineState} (hle : s.num ≤ s.eolNum)
    (hroom : s.eolNum < len) (ichar : UInt8) :
    0 < (creadAddChar len ichar s).eolNum := by
  cases hinsert : s.insert with
  | true =>
      rw [creadAddChar_insert hinsert hle hroom]
      exact Nat.succ_pos _
  | false =>
      rw [creadAddChar_overwrite hinsert hle fun _ => hroom]
      exact (Nat.succ_pos _).trans_le (le_max_right _ _)

namespace Sim

variable {len : ℕ} {s : LineState} {e : Editor}

/-- The line grows exactly where the editor has it grow. -/
theorem grow_iff (h : Sim len s e) :
    (s.insert = true ∨ s.num = s.eolNum) ↔
      (e.insert = true ∨ e.cursor.after = []) := by
  rw [h.insert, h.end_iff]

theorem fills_iff (h : Sim len s e) : fills len e.text = true ↔ len ≤ s.eolNum := by
  rw [fills, decide_eq_true_eq, Editor.text, ← h.shows.eol_eq]

theorem addChar (hlen : 0 < len) (h : Sim len s e) (ichar : UInt8) :
    Sim len (creadAddChar len ichar s) (e.addChar (fills len) ichar) := by
  have hle := h.shows.num_le
  have hbuflen := h.length
  by_cases hfull : (s.insert = true ∨ s.num = s.eolNum) ∧ len ≤ s.eolNum
  · have hfull' := hfull
    rw [h.grow_iff, ← h.fills_iff] at hfull'
    rw [creadAddChar_full hlen hfull.1 hfull.2, Editor.addChar, if_pos hfull']
    exact h
  · have hfull' := hfull
    rw [h.grow_iff, ← h.fills_iff] at hfull'
    rw [Editor.addChar, if_neg hfull']
    cases hinsert : s.insert with
    | true =>
        have hroom : s.eolNum < len := by
          by_contra hge
          exact hfull ⟨Or.inl hinsert, not_lt.mp hge⟩
        rw [creadAddChar_insert hinsert hle hroom, if_pos (h.insert ▸ hinsert)]
        rw [← hbuflen] at hroom ⊢
        exact ⟨h.shows.insert hroom ichar, h.shows.insert_length hroom ichar,
          h.insert, h.esc, h.hist⟩
    | false =>
        have hroom : s.num = s.eolNum → s.eolNum < len := by
          intro hend
          by_contra hge
          exact hfull ⟨Or.inr hend, not_lt.mp hge⟩
        have hinsert' : ¬ e.insert = true := by
          rw [← h.insert, hinsert]
          simp
        rw [creadAddChar_overwrite hinsert hle hroom, if_neg hinsert']
        refine ⟨h.shows.overwrite ichar, ?_, h.insert, h.esc, h.hist⟩
        have heol := h.shows.eol_le
        rw [← hbuflen] at hroom ⊢
        apply patch_length_of_le
        rw [List.length_singleton]
        omega

theorem addStr (hlen : 0 < len) (h : Sim len s e) (str : List UInt8) :
    Sim len (creadAddStr len str s) (e.addStr (fills len) str) := by
  induction str generalizing s e with
  | nil => exact h
  | cons c str ih => exact ih (h.addChar hlen c)

theorem setEsc (h : Sim len s e) (esc : List UInt8) :
    Sim len { s with escSave := esc } { e with esc := esc } :=
  ⟨h.shows, h.length, h.insert, rfl, h.hist⟩

/-- The cursor moves, the line stays. -/
theorem move (h : Sim len s e) {num : ℕ} {cursor : Cursor UInt8}
    (hshows : Shows s.buf num s.eolNum cursor) :
    Sim len { s with num := num } { e with cursor := cursor } :=
  ⟨hshows, h.length, h.insert, h.esc, h.hist⟩

theorem home (h : Sim len s e) :
    Sim len (beginningOfLine s) { e with cursor := e.cursor.home } :=
  h.move h.shows.home

theorem toEnd (h : Sim len s e) :
    Sim len (refreshToEol s) { e with cursor := e.cursor.toEnd } := by
  unfold refreshToEol
  split
  · exact h.move h.shows.toEnd
  · have hnum : s.num = s.eolNum := by
      have := h.shows.num_le
      omega
    have hshows := h.shows.toEnd
    refine ⟨?_, h.length, h.insert, h.esc, h.hist⟩
    rw [hnum]
    exact hshows

theorem kill (h : Sim len s e) :
    Sim len (eraseToEol s) { e with cursor := e.cursor.killToEnd } := by
  unfold eraseToEol
  split
  · exact ⟨h.shows.killToEnd, h.length, h.insert, h.esc, h.hist⟩
  · have hnum : s.eolNum = s.num := by
      have := h.shows.num_le
      omega
    have hshows := h.shows.killToEnd
    refine ⟨?_, h.length, h.insert, h.esc, h.hist⟩
    rw [hnum]
    exact hshows

theorem clear (h : Sim len s e) :
    Sim len (eraseToEol (beginningOfLine s))
      { e with cursor := Cursor.empty } :=
  h.home.kill

theorem copyLine (h : Sim len s e) {l : List UInt8} (hzero : (0 : UInt8) ∉ l)
    (hfits : l.length < len) :
    Sim len (Cli.copyLine l s) { e with cursor := Cursor.atEnd l } := by
  have hclear := h.clear
  have hstrlen : cstr (patch (eraseToEol (beginningOfLine s)).buf 0 (l ++ [0])) =
      l := cstr_patch_zero _ hzero
  have hcopied : Sim len
      { eraseToEol (beginningOfLine s) with
        buf := patch (eraseToEol (beginningOfLine s)).buf 0 (l ++ [0])
        eolNum := l.length }
      { e with cursor := ⟨[], l⟩ } := by
    refine ⟨?_, ?_, hclear.insert, hclear.esc, hclear.hist⟩
    · rw [hclear.shows.num_eq]
      exact Shows.replace _ l [0]
    · rw [← hclear.length]
      apply patch_length_of_le
      rw [hclear.length, List.length_append, List.length_singleton]
      omega
  rw [Cli.copyLine, hstrlen]
  exact hcopied.toEnd

/-- A line of the history that leaves room for its NUL byte. -/
theorem recallLine (h : Sim len s e) {k : KeyCase}
    (hline : ∀ l, (recallHist k e.hist).1 = some l → l.length < len) :
    Sim len (Cli.recallLine k s) (e.recallLine k) := by
  have hzero := zero_notMem_recall k e.hist
  rw [Cli.recallLine, Editor.recallLine, h.hist]
  generalize recallHist k e.hist = recalled at hline hzero ⊢
  rcases recalled with ⟨_ | l, hist⟩
  · exact ⟨h.shows, h.length, h.insert, h.esc, rfl⟩
  · have hs : Sim len { s with hist := hist } { e with hist := hist } :=
      ⟨h.shows, h.length, h.insert, h.esc, rfl⟩
    exact hs.copyLine (hzero l rfl) (hline l rfl)

theorem onKey (hlen : 0 < len) (h : Sim len s e) (ichar : UInt8) (hesc : e.esc = [])
    (hline : keyCase ichar = .prev ∨ keyCase ichar = .next →
      ∀ l, (recallHist (keyCase ichar) e.hist).1 = some l → l.length < len) :
    Loop.Rel (Sim len) (switchKey len ichar s)
      (e.onKey (fills len) keyCase ichar) := by
  have hnumle := h.shows.num_le
  have heolle := h.shows.eol_le
  rw [switchKey, Editor.onKey]
  cases hcase : keyCase ichar with
  | escape =>
      rw [h.esc, hesc]
      exact h.setEsc [ichar]
  | home => exact h.home
  | brk => exact h
  | forward =>
      dsimp only
      split
      · exact h.move (h.shows.right ‹_›)
      · rw [(h.shows.right_of_end ‹_›).1]
        exact h
  | back =>
      dsimp only
      split
      · exact h.move h.shows.left
      · rw [(h.shows.left_of_start ‹_›).1]
        exact h
  | delete =>
      dsimp only
      split
      · refine ⟨h.shows.delete ‹_›, ?_, h.insert, h.esc, h.hist⟩
        rw [← h.length]
        exact memmove_length (by omega)
      · rw [(h.shows.right_of_end ‹_›).2]
        exact h
  | kill => exact h.kill
  | toEnd => exact h.toEnd
  | toggle => exact ⟨h.shows, h.length, by rw [h.insert], h.esc, h.hist⟩
  | clear => exact h.clear
  | rubout =>
      dsimp only
      split
      · refine ⟨h.shows.backspace (by omega), ?_, h.insert, h.esc, h.hist⟩
        rw [← h.length]
        exact memmove_length (by omega)
      · rw [(h.shows.left_of_start ‹_›).2]
        exact h
  | prev =>
      rw [hcase] at hline
      exact h.recallLine (hline (Or.inl rfl))
  | next =>
      rw [hcase] at hline
      exact h.recallLine (hline (Or.inr rfl))
  | char => exact h.addChar hlen ichar

/-- One key stroke; a line that it recalls has to leave room for its NUL byte. -/
theorem key (hlen : 0 < len) (h : Sim len s e) (ichar : UInt8)
    (hline : ¬ (ichar = ch '\n' ∨ ichar = ch '\r') →
      ∀ c, decodeEsc e.esc ichar = .key c → keyCase c = .prev ∨ keyCase c = .next →
      ∀ l, (recallHist (keyCase c) e.hist).1 = some l → l.length < len) :
    Loop.Rel (Sim len) (creadKey len ichar s)
      (e.key (fills len) keyCase ichar) := by
  rw [creadKey, Editor.key, h.esc]
  split
  · exact h
  · cases hdecode : decodeEsc e.esc ichar with
    | saved esc => exact h.setEsc esc
    | added str => exact (h.addStr hlen str).setEsc []
    | key c => exact (h.setEsc []).onKey hlen c rfl (hline ‹_› c hdecode)

end Sim

end TateFirmware.Cli
