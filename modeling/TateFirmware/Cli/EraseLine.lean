import TateFirmware.Cli.LineRun

/-!
# The keys of the line editor

An editor has a key that erases the whole line; the reader of lines that is built
without `CONFIG_CMDLINE_EDITING` takes `^U` for it.  `cread_line` has `^X` only, and
adds `^U` to the line like a character.  As long as `^U` is not pressed, and the
lines stay shorter than the buffer, it carries out the editor.
-/

namespace TateFirmware.Cli

open LibGeneric Support

/-- The keys of the editor, `^U` among them. -/
def editorCase (ichar : UInt8) : KeyCase :=
  if ichar = ctlCh 'u' then .clear else keyCase ichar

/-- The editor, with room in every line. -/
def fullEditor (hist : History) (keys : List UInt8) : Loop Editor :=
  editorLoop (fun _ => false) editorCase hist keys

/-- The buffer holds the text of the editor in front of `eol_num`, and `num` is its
cursor. -/
structure Refines (s : LineState) (e : Editor) : Prop where
  num_le : s.num ≤ s.eolNum
  text : s.buf.take s.eolNum = e.text
  cursor : s.num = e.cursor.before.length
  eol : s.eolNum = e.text.length

theorem Sim.refines {len : ℕ} {s : LineState} {e : Editor} (h : Sim len s e) :
    Refines s e :=
  ⟨h.shows.num_le, h.shows.text_eq, h.shows.num_eq, h.shows.eol_eq⟩

/-- `^U` is about to be read as a key of its own. -/
def Waits (hist : History) (keys : List UInt8) : Prop :=
  ∃ e, fullEditor hist keys = .editing e ∧ e.esc = []

/-! ## Lines that stay short -/

namespace Editor

theorem addChar_text_length (full : List UInt8 → Bool) (c : UInt8) (e : Editor) :
    e.text.length ≤ (e.addChar full c).text.length := by
  unfold addChar text
  split_ifs
  · exact le_rfl
  · rw [Cursor.text_insert_length]
    exact Nat.le_succ _
  · rw [Cursor.text_overwrite_length]
    exact le_max_left _ _

theorem addStr_text_length (full : List UInt8 → Bool) (str : List UInt8) (e : Editor) :
    e.text.length ≤ (e.addStr full str).text.length := by
  induction str generalizing e with
  | nil => exact le_rfl
  | cons c str ih => exact (addChar_text_length full c e).trans (ih _)

/-- In a line that is not full the capacity does not matter. -/
theorem addChar_fills {len : ℕ} {c : UInt8} {e : Editor} (h : e.text.length < len) :
    e.addChar (fills len) c = e.addChar (fun _ => false) c := by
  have hroom : fills len e.text = false := by
    rw [fills, decide_eq_false_iff_not]
    exact not_le.mpr h
  rw [addChar, addChar, hroom]

theorem addStr_fills {len : ℕ} {str : List UInt8} {e : Editor}
    (h : (e.addStr (fun _ => false) str).text.length < len) :
    e.addStr (fills len) str = e.addStr (fun _ => false) str := by
  induction str generalizing e with
  | nil => rfl
  | cons c str ih =>
      have hlen : e.text.length < len :=
        (addStr_text_length _ (c :: str) e).trans_lt h
      rw [addStr, List.foldl_cons, addChar_fills hlen]
      exact ih h

/-- The end of an escape sequence is not read as `^U`. -/
theorem decodeEsc_ne {esc : List UInt8} {c c' : UInt8}
    (hkey : esc = [] → c ≠ ctlCh 'u') (h : decodeEsc esc c = .key c') :
    c' ≠ ctlCh 'u' := by
  unfold decodeEsc at h
  split_ifs at h with hnil
  · rw [← Decoded.key.inj h]
    exact hkey (List.length_eq_zero_iff.mp hnil)
  all_goals
    rw [← Decoded.key.inj h]
    decide

theorem onKey_eq {len : ℕ} {c : UInt8} {e : Editor} (hkey : c ≠ ctlCh 'u')
    (hshort : (e.onKey (fun _ => false) editorCase c).state.text.length < len) :
    e.onKey (fills len) keyCase c = e.onKey (fun _ => false) editorCase c := by
  have hcase : editorCase c = keyCase c := if_neg hkey
  rw [onKey, hcase] at hshort
  rw [onKey, onKey, hcase]
  cases hchar : keyCase c with
  | char =>
      have hlen : (e.addChar (fun _ => false) c).text.length < len := by
        rw [hchar] at hshort
        exact hshort
      dsimp only
      rw [addChar_fills ((addChar_text_length _ c e).trans_lt hlen)]
  | _ => rfl

/-- A key that leaves the line short does the same in the editor with the keys and
the capacity of `cread_line`. -/
theorem key_eq {len : ℕ} {c : UInt8} {e : Editor}
    (hkey : e.esc = [] → c ≠ ctlCh 'u')
    (hshort : (e.key (fun _ => false) editorCase c).state.text.length < len) :
    e.key (fills len) keyCase c = e.key (fun _ => false) editorCase c := by
  rw [key] at hshort
  rw [key, key]
  split
  · rfl
  · rename_i hline
    rw [if_neg hline] at hshort
    cases hdecode : decodeEsc e.esc c with
    | saved esc => rfl
    | added str =>
        rw [hdecode] at hshort
        dsimp only
        rw [addStr_fills hshort]
    | key c' =>
        rw [hdecode] at hshort
        exact onKey_eq (decodeEsc_ne hkey hdecode) hshort

theorem recallLine_text {k : KeyCase} {e : Editor} {l : List UInt8}
    (hl : (recallHist k e.hist).1 = some l) : (e.recallLine k).text = l := by
  rw [recallLine]
  split
  · rename_i hrecall
    rw [hrecall] at hl
    cases hl
  · rename_i hline hist hrecall
    rw [hrecall] at hl
    rw [← Option.some.inj hl]
    exact Cursor.text_atEnd hline

/-- A line recalled by a key is the text behind it. -/
theorem key_recall_text {c c' : UInt8} {e : Editor} {l : List UInt8}
    (hkey : e.esc = [] → c ≠ ctlCh 'u') (hline : ¬ (c = ch '\n' ∨ c = ch '\r'))
    (hdecode : decodeEsc e.esc c = .key c')
    (hcase : keyCase c' = .prev ∨ keyCase c' = .next)
    (hl : (recallHist (keyCase c') e.hist).1 = some l) :
    (e.key (fun _ => false) editorCase c).state.text = l := by
  have hcase' : editorCase c' = keyCase c' := if_neg (decodeEsc_ne hkey hdecode)
  rw [key, if_neg hline, hdecode]
  dsimp only
  rw [onKey, hcase']
  rcases hcase with hprev | hnext
  · rw [hprev] at hl ⊢
    exact recallLine_text (e := { e with esc := [] }) hl
  · rw [hnext] at hl ⊢
    exact recallLine_text (e := { e with esc := [] }) hl

end Editor

/-! ## The refinement -/

/-- While `^U` is not read, `cread_line` carries out the editor. -/
theorem sim_loop {buf : List UInt8} {len : ℕ} (hbuf : buf.length = len)
    {hist : History} {keys : List UInt8}
    (hshort : ∀ pre, pre <+: keys → (fullEditor hist pre).state.text.length < len)
    (herase : ∀ pre, pre ++ [ctlCh 'u'] <+: keys → ¬ Waits hist pre) :
    Loop.Rel (Sim len) (editLoop buf len hist keys) (fullEditor hist keys) := by
  have hlen : 0 < len := Nat.lt_of_le_of_lt (Nat.zero_le _) (hshort [] List.nil_prefix)
  induction keys using List.reverseRecOn with
  | nil => exact sim_start hbuf hist
  | append_singleton keys c ih =>
      have hgrow : ∀ pre : List UInt8, pre <+: keys → pre <+: keys ++ [c] := by
        intro pre hpre
        exact hpre.trans (List.prefix_append _ _)
      have hkeys := ih (fun pre hpre => hshort pre (hgrow pre hpre))
        (fun pre hpre => herase pre (hgrow _ hpre))
      have hlast := hshort (keys ++ [c]) (List.prefix_refl _)
      rw [fullEditor, editorLoop_concat] at hlast ⊢
      rw [editLoop_concat]
      apply hkeys.run_singleton
      intro s e hsim _ heditor
      have hkey : e.esc = [] → c ≠ ctlCh 'u' := by
        rintro hesc rfl
        exact herase keys (List.prefix_refl _) ⟨e, heditor, hesc⟩
      rw [fullEditor] at heditor
      rw [heditor, Loop.run, Loop.run_nil] at hlast
      have hstep := hsim.key hlen c fun hline c' hdecode hcase l hl => by
        rw [← Editor.key_recall_text hkey hline hdecode hcase hl]
        exact hlast
      rw [Editor.key_eq hkey hlast] at hstep
      exact hstep

/-- `^U` read as a key of its own is added to the line. -/
theorem creadKey_erase {len : ℕ} {s : LineState} {e : Editor} (h : Sim len s e)
    (hesc : e.esc = []) (hshort : e.text.length < len) :
    ∃ s', creadKey len (ctlCh 'u') s = .editing s' ∧ 0 < s'.eolNum := by
  have hroom : s.eolNum < len := by
    rw [h.shows.eol_eq]
    exact hshort
  refine ⟨creadAddChar len (ctlCh 'u') { s with escSave := [] }, ?_,
    creadAddChar_pos (s := { s with escSave := [] }) h.shows.num_le hroom _⟩
  rw [creadKey, if_neg (by decide), h.esc, hesc]
  rfl

theorem fullEditor_erase {hist : History} {pre : List UInt8} {e : Editor}
    (heditor : fullEditor hist pre = .editing e) (hesc : e.esc = []) :
    fullEditor hist (pre ++ [ctlCh 'u']) =
      .editing { e with cursor := Cursor.empty, esc := [] } := by
  rw [fullEditor] at heditor
  rw [fullEditor, editorLoop_concat, heditor, Loop.run, Loop.run_nil, Editor.key,
    if_neg (by decide), hesc]
  rfl

/-- In a run whose lines stay shorter than the buffer, `cread_line` carries out the
editor at every key stroke exactly if `^U` is never read as a key. -/
theorem creadLine_refines_iff (buf : List UInt8) (len : ℕ) (hbuf : buf.length = len)
    (hist : History) (keys : List UInt8)
    (hshort : ∀ pre, pre <+: keys → (fullEditor hist pre).state.text.length < len) :
    (∀ pre, pre <+: keys →
      Loop.Rel Refines (editLoop buf len hist pre) (fullEditor hist pre)) ↔
      ∀ pre, pre ++ [ctlCh 'u'] <+: keys → ¬ Waits hist pre := by
  constructor
  · intro hrefines pre hpre hwaits
    induction hn : pre.length using Nat.strong_induction_on generalizing pre with
    | h n ih =>
        have hkeys : pre <+: keys := (List.prefix_append _ _).trans hpre
        have hsim := sim_loop hbuf
          (fun q hq => hshort q (hq.trans hkeys))
          (fun q hq hwaits => ih q.length
            (by
              have := hq.length_le
              rw [List.length_append, List.length_singleton] at this
              omega)
            q (hq.trans hkeys) hwaits rfl)
        obtain ⟨e, heditor, hesc⟩ := hwaits
        have hline := hshort pre hkeys
        have hrefine := hrefines _ hpre
        rw [fullEditor_erase heditor hesc, editLoop_concat] at hrefine
        rw [heditor] at hsim hline
        cases hcode : editLoop buf len hist pre with
        | editing s =>
            rw [hcode] at hsim hrefine
            obtain ⟨s', hkey, hpos⟩ := creadKey_erase hsim hesc hline
            rw [Loop.run, Loop.run_nil, hkey] at hrefine
            have heol : s'.eolNum = 0 := hrefine.eol
            omega
        | entered s =>
            rw [hcode] at hsim
            exact hsim.elim
        | broken s =>
            rw [hcode] at hsim
            exact hsim.elim
  · intro herase pre hpre
    have hsim := sim_loop hbuf (fun q hq => hshort q (hq.trans hpre))
      (fun q hq => herase q (hq.trans hpre))
    exact hsim.imp_of_state (P := fun _ => True) trivial fun s e h _ => h.refines

theorem creadLine_refines_ls :
    Loop.Rel Refines
      (editLoop (List.replicate maxCmdbufSize 0) maxCmdbufSize (histInit zeroRing)
        [ch 'l', ch 's'])
      (fullEditor (histInit zeroRing) [ch 'l', ch 's']) := by
  have hshort : ∀ pre ∈ [ch 'l', ch 's'].inits,
      (fullEditor (histInit zeroRing) pre).state.text.length < maxCmdbufSize := by
    decide
  have hkeys : ctlCh 'u' ∉ [ch 'l', ch 's'] := by decide
  refine (creadLine_refines_iff _ _ List.length_replicate _ [ch 'l', ch 's']
    (fun pre hpre => hshort pre ((List.mem_inits _ _).mpr hpre))).mpr ?_ _
    (List.prefix_refl _)
  intro pre hpre
  exact absurd (hpre.subset (by simp)) hkeys

/-- `^U` behind the letter `a` leaves two characters in the buffer. -/
theorem erase_not_refines :
    ¬ Loop.Rel Refines
      (editLoop (List.replicate maxCmdbufSize 0) maxCmdbufSize (histInit zeroRing)
        [ch 'a', ctlCh 'u'])
      (fullEditor (histInit zeroRing) [ch 'a', ctlCh 'u']) := by
  intro h
  have heol : (2 : ℕ) = 0 := h.eol
  omega

end TateFirmware.Cli
