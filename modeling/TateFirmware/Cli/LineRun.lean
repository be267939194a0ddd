import TateFirmware.Cli.LineEditor

/-!
# Lines as they are typed

`cread_line` carries out the editor with the capacity of its buffer, key stroke by
key stroke.  The capacity counts the NUL byte out: a line may become as long as the
buffer, and then the NUL byte is written behind the buffer and, if the line is added
to the history, behind its slot.
-/

namespace TateFirmware.Cli

open LibGeneric Support

/-- The editor on a sequence of key strokes. -/
def editorLoop (full : List UInt8 → Bool) (keyOf : UInt8 → KeyCase) (hist : History)
    (keys : List UInt8) : Loop Editor :=
  Loop.run (Editor.key full keyOf) (.editing (Editor.start hist)) keys

theorem editorLoop_concat (full : List UInt8 → Bool) (keyOf : UInt8 → KeyCase)
    (hist : History) (keys : List UInt8) (c : UInt8) :
    editorLoop full keyOf hist (keys ++ [c]) =
      Loop.run (Editor.key full keyOf) (editorLoop full keyOf hist keys) [c] :=
  Loop.run_concat _ _ _ _

theorem editLoop_concat (buf : List UInt8) (len : ℕ) (hist : History)
    (keys : List UInt8) (c : UInt8) :
    editLoop buf len hist (keys ++ [c]) =
      Loop.run (creadKey len) (editLoop buf len hist keys) [c] :=
  Loop.run_concat _ _ _ _

theorem sim_start {buf : List UInt8} {len : ℕ} (hbuf : buf.length = len)
    (hist : History) : Sim len (startLine buf hist) (Editor.start hist) :=
  ⟨Shows.clear buf, hbuf, rfl, rfl, rfl⟩

/-! ## The history under the editor -/

namespace Editor

variable {full : List UInt8 → Bool} {keyOf : UInt8 → KeyCase}

theorem addChar_hist (ichar : UInt8) (e : Editor) :
    (e.addChar full ichar).hist = e.hist := by
  unfold addChar
  split_ifs <;> rfl

theorem addStr_hist (str : List UInt8) (e : Editor) :
    (e.addStr full str).hist = e.hist := by
  induction str generalizing e with
  | nil => rfl
  | cons c str ih => exact (ih _).trans (addChar_hist c e)

theorem recallLine_hist (k : KeyCase) (e : Editor) :
    (e.recallLine k).hist = (recallHist k e.hist).2 := by
  rw [recallLine]
  split
  · rename_i hrecall
    rw [hrecall]
  · rename_i hrecall
    rw [hrecall]

/-- A key leaves the history alone or recalls a line of it. -/
theorem key_hist (ichar : UInt8) (e : Editor) :
    (e.key full keyOf ichar).state.hist = e.hist ∨
      ∃ k, (e.key full keyOf ichar).state.hist = (recallHist k e.hist).2 := by
  rw [key]
  split
  · exact Or.inl rfl
  · cases decodeEsc e.esc ichar with
    | saved esc => exact Or.inl rfl
    | added str => exact Or.inl (addStr_hist str e)
    | key c =>
        dsimp only [onKey]
        cases keyOf c with
        | prev => exact Or.inr ⟨.prev, recallLine_hist .prev _⟩
        | next => exact Or.inr ⟨.next, recallLine_hist .next _⟩
        | char => exact Or.inl (addChar_hist c _)
        | _ => exact Or.inl rfl

end Editor

theorem recall_keeps {h : History} (hv : h.Valid) (hfit : h.SlotsFit) (k : KeyCase) :
    (recallHist k h).2.Valid ∧ (recallHist k h).2.SlotsFit ∧
      ∀ l, (recallHist k h).1 = some l → l.length < histSize := by
  unfold recallHist
  split
  · exact History.prev_keeps hv hfit
  · exact History.next_keeps hv hfit

/-! ## Bounds -/

/-- The buffer of `readline` shows the editor, and the lines of the history fit. -/
structure SafeSim (s : LineState) (e : Editor) : Prop where
  sim : Sim maxCmdbufSize s e
  valid : e.hist.Valid
  fits : e.hist.SlotsFit

theorem SafeSim.key {s : LineState} {e : Editor} (h : SafeSim s e) (ichar : UInt8) :
    Loop.Rel SafeSim (creadKey maxCmdbufSize ichar s)
      (e.key (fills maxCmdbufSize) keyCase ichar) := by
  have hkey := h.sim.key (by decide) ichar fun _ c _ _ =>
    (recall_keeps h.valid h.fits _).2.2
  have hhist : (e.key (fills maxCmdbufSize) keyCase ichar).state.hist.Valid ∧
      (e.key (fills maxCmdbufSize) keyCase ichar).state.hist.SlotsFit := by
    rcases Editor.key_hist ichar e with heq | ⟨k, heq⟩
    · rw [heq]
      exact ⟨h.valid, h.fits⟩
    · rw [heq]
      obtain ⟨hvalid, hfits, -⟩ := recall_keeps h.valid h.fits k
      exact ⟨hvalid, hfits⟩
  exact Loop.Rel.imp_of_state (P := fun e => e.hist.Valid ∧ e.hist.SlotsFit) hkey hhist
    fun s e hsim hhist => ⟨hsim, hhist.1, hhist.2⟩

theorem safeSim_loop {buf : List UInt8} (hbuf : buf.length = maxCmdbufSize)
    {hist : History} (hv : hist.Valid) (hfit : hist.SlotsFit) (keys : List UInt8) :
    Loop.Rel SafeSim (editLoop buf maxCmdbufSize hist keys)
      (editorLoop (fills maxCmdbufSize) keyCase hist keys) := by
  induction keys using List.reverseRecOn with
  | nil => exact ⟨sim_start hbuf hist, hv, hfit⟩
  | append_singleton keys c ih =>
      rw [editLoop_concat, editorLoop_concat]
      exact ih.run_singleton fun s e h _ _ => h.key c

/-- Characters that are typed one after the other become the line. -/
theorem editorLoop_typed (len : ℕ) (hist : History) (line : List UInt8)
    (hchars : ∀ c ∈ line, keyCase c = .char ∧ c ≠ ch '\n' ∧ c ≠ ch '\r')
    (hlen : line.length ≤ len) :
    editorLoop (fills len) keyCase hist line =
      .editing { Editor.start hist with cursor := Cursor.atEnd line } := by
  induction line using List.reverseRecOn with
  | nil => rfl
  | append_singleton line c ih =>
      obtain ⟨hcase, hnl, hcr⟩ := hchars c (by simp)
      rw [List.length_append, List.length_singleton] at hlen
      have hroom : ¬ fills len (Cursor.atEnd line).text = true := by
        rw [Cursor.text_atEnd, fills, decide_eq_true_eq]
        omega
      rw [editorLoop_concat, ih (fun a ha => hchars a (by simp [ha])) (by omega)]
      have hkey : Editor.key (fills len) keyCase c
          { Editor.start hist with cursor := Cursor.atEnd line } =
            .editing (Editor.addChar (fills len) c
              { Editor.start hist with cursor := Cursor.atEnd line }) := by
        rw [Editor.key, if_neg (by simp [hnl, hcr])]
        change Editor.onKey (fills len) keyCase c _ = _
        rw [Editor.onKey, hcase]
        rfl
      rw [Loop.run, Loop.run_nil, hkey, Editor.addChar, if_neg (fun h => hroom h.2)]
      simp [Editor.start, Cursor.insert, Cursor.atEnd]

/-- The line that is in the editor when Enter is pressed. -/
def typedLine (len : ℕ) (hist : History) (keys : List UInt8) : Option (List UInt8) :=
  match editorLoop (fills len) keyCase hist keys with
  | .entered e => some e.text
  | _ => none

/-- Nothing has been written outside the `len` bytes of the buffer or behind the slot
of a line of the history, and a line that is returned ends with a NUL byte. -/
def Cread.Safe (len : ℕ) : Cread → Prop
  | .waiting s => s.buf.length = len ∧ s.hist.SlotsFit
  | .returned r =>
      r.buf.length = len ∧ (cstr r.buf).length < len ∧ r.hist.SlotsFit

instance (len : ℕ) (c : Cread) : Decidable (c.Safe len) :=
  match c with
  | .waiting _ => inferInstanceAs (Decidable (_ ∧ _))
  | .returned _ => inferInstanceAs (Decidable (_ ∧ _ ∧ _))

theorem cstr_length_lt {s back : List UInt8} {n : ℕ} (hs : s.length < n) :
    (cstr (s ++ 0 :: back)).length < n := by
  have hle : (cstr (s ++ 0 :: back)).length ≤ s.length := by
    induction s with
    | nil => exact Nat.le_refl _
    | cons c s ih =>
        rw [cstr, List.cons_append, List.takeWhile_cons]
        split
        · exact Nat.succ_le_succ (ih (Nat.lt_of_succ_lt hs))
        · exact Nat.zero_le _
  omega

/-- Enter in a line that leaves room for the NUL byte. -/
theorem SafeSim.enterLine_safe {s : LineState} {e : Editor} (h : SafeSim s e)
    (hroom : e.text.length < maxCmdbufSize) :
    (Cread.returned (enterLine s)).Safe maxCmdbufSize := by
  have hlen := h.sim.length
  have heol : s.eolNum < maxCmdbufSize := by
    rw [h.sim.shows.eol_eq]
    exact hroom
  have hstr : (cstr (patch s.buf s.eolNum [0])).length < maxCmdbufSize := by
    rw [patch, List.append_assoc]
    apply cstr_length_lt
    rw [List.length_take]
    omega
  refine ⟨?_, hstr, ?_⟩
  · rw [← hlen]
    apply patch_length_of_le
    rw [List.length_singleton]
    omega
  · have hvalid := h.valid
    have hfits := h.fits
    rw [← h.sim.hist] at hvalid hfits
    rw [enterLine]
    dsimp only
    split
    · exact hfits.add hvalid hstr
    · exact hfits

/-- Enter in a line that fills the buffer. -/
theorem SafeSim.enterLine_not_safe {s : LineState} {e : Editor} (h : SafeSim s e)
    (hfull : ¬ e.text.length < maxCmdbufSize) :
    ¬ (Cread.returned (enterLine s)).Safe maxCmdbufSize := by
  rintro ⟨hlen, -, -⟩
  have heol : s.eolNum = e.text.length := h.sim.shows.eol_eq
  have hle := h.sim.shows.eol_le
  have hbuf : (patch s.buf s.eolNum [0]).length = max s.buf.length (s.eolNum + 1) :=
    patch_length hle
  have hlen' : (patch s.buf s.eolNum [0]).length = maxCmdbufSize := hlen
  omega

theorem SafeSim.break_safe {s : LineState} {e : Editor} (h : SafeSim s e) :
    (Cread.returned ⟨-1, maxCmdbufSize, patch s.buf 0 [0], s.hist⟩).Safe
      maxCmdbufSize := by
  refine ⟨?_, ?_, ?_⟩
  · rw [← h.sim.length]
    apply patch_length_of_le
    rw [h.sim.length]
    decide
  · exact cstr_length_lt (s := []) (by decide)
  · rw [h.sim.hist]
    exact h.fits

/-- `cread_line` stays in its buffer and in the slots of the history exactly if the
line, at the time Enter is pressed, leaves room for the NUL byte. -/
theorem creadLine_safe_iff (buf : List UInt8) (hbuf : buf.length = maxCmdbufSize)
    (hist : History) (hvalid : hist.Valid) (hfits : hist.SlotsFit)
    (keys : List UInt8) :
    (creadLine buf maxCmdbufSize hist keys).Safe maxCmdbufSize ↔
      ∀ line, typedLine maxCmdbufSize hist keys = some line →
        line.length < maxCmdbufSize := by
  have hloop := safeSim_loop hbuf hvalid hfits keys
  rw [creadLine, typedLine]
  cases hcode : editLoop buf maxCmdbufSize hist keys with
  | editing s =>
      rw [hcode] at hloop
      obtain ⟨e, heditor, h⟩ := hloop.of_editing
      rw [heditor]
      refine iff_of_true ⟨h.sim.length, ?_⟩ (by simp)
      rw [h.sim.hist]
      exact h.fits
  | entered s =>
      rw [hcode] at hloop
      obtain ⟨e, heditor, h⟩ := hloop.of_entered
      rw [heditor]
      constructor
      · intro hsafe line hline
        rw [← Option.some.inj hline]
        by_contra hfull
        exact h.enterLine_not_safe hfull hsafe
      · intro hline
        exact h.enterLine_safe (hline _ rfl)
  | broken s =>
      rw [hcode] at hloop
      obtain ⟨e, heditor, h⟩ := hloop.of_broken
      rw [heditor]
      exact iff_of_true h.break_safe (by simp)

theorem creadLine_safe_ls :
    (creadLine (List.replicate maxCmdbufSize 0) maxCmdbufSize (histInit zeroRing)
      [ch 'l', ch 's', ch '\r']).Safe maxCmdbufSize :=
  (creadLine_safe_iff _ List.length_replicate _ (histInit_valid (by decide +kernel))
    (histInit_slotsFit (by decide +kernel)) _).mpr (by
      intro line hline
      rw [← Option.some.inj hline]
      decide)

/-- Characters that fill the buffer, and then Enter. -/
theorem creadLine_typed_not_safe {buf : List UInt8} (hbuf : buf.length = maxCmdbufSize)
    {hist : History} (hvalid : hist.Valid) (hfits : hist.SlotsFit) {line : List UInt8}
    (hchars : ∀ c ∈ line, keyCase c = .char ∧ c ≠ ch '\n' ∧ c ≠ ch '\r')
    (hlen : line.length = maxCmdbufSize) :
    ¬ (creadLine buf maxCmdbufSize hist (line ++ [ch '\r'])).Safe maxCmdbufSize := by
  have hloop := safeSim_loop hbuf hvalid hfits (line ++ [ch '\r'])
  rw [editorLoop_concat, editorLoop_typed maxCmdbufSize hist line hchars hlen.le,
    Loop.run, Loop.run_nil, Editor.key, if_pos (Or.inr rfl)] at hloop
  obtain ⟨s, hentered, h⟩ := hloop.to_entered
  rw [creadLine, hentered]
  apply h.enterLine_not_safe
  rw [Editor.text, Cursor.text_atEnd, hlen]
  exact lt_irrefl _

/-- A line of `MAX_CMDBUF_SIZE` characters. -/
theorem fullLine_not_safe :
    ¬ (creadLine (List.replicate maxCmdbufSize 0) maxCmdbufSize
      (histInit zeroRing) (List.replicate maxCmdbufSize (ch 'a') ++ [ch '\r'])).Safe
        maxCmdbufSize :=
  creadLine_typed_not_safe List.length_replicate (histInit_valid (by decide +kernel))
    (histInit_slotsFit (by decide +kernel))
    (fun c hc => by rw [List.eq_of_mem_replicate hc]; decide) List.length_replicate

/-- The histories that calls of `cread_line` leave when every line leaves room for its
NUL byte. -/
inductive ReachedHistory : History → Prop where
  | init (h : History) (hsize : histList histSlots ≤ h.histLines.length) :
      ReachedHistory (histInit h)
  | read (hist : History) (hreached : ReachedHistory hist) (buf keys : List UInt8)
      (hbuf : buf.length = maxCmdbufSize)
      (hshort : ∀ line, typedLine maxCmdbufSize hist keys = some line →
        line.length < maxCmdbufSize)
      (r : ReadLine)
      (hread : creadLine buf maxCmdbufSize hist keys = .returned r) :
      ReachedHistory r.hist

theorem ReachedHistory.valid_and_fits {hist : History} (h : ReachedHistory hist) :
    hist.Valid ∧ hist.SlotsFit := by
  induction h with
  | init h hsize => exact ⟨histInit_valid hsize, histInit_slotsFit hsize⟩
  | read hist _ buf keys hbuf hshort r hread ih =>
      obtain ⟨hvalid, hfits⟩ := ih
      have hsafe := (creadLine_safe_iff buf hbuf hist hvalid hfits keys).mpr hshort
      rw [hread] at hsafe
      refine ⟨?_, hsafe.2.2⟩
      have hloop := safeSim_loop hbuf hvalid hfits keys
      rw [creadLine] at hread
      cases hcode : editLoop buf maxCmdbufSize hist keys with
      | editing s =>
          rw [hcode] at hread
          cases hread
      | entered s =>
          rw [hcode] at hread hloop
          obtain ⟨e, -, h⟩ := hloop.of_entered
          have hvalid' := h.valid
          rw [← h.sim.hist] at hvalid'
          obtain rfl : enterLine s = r := by injection hread
          rw [enterLine]
          apply History.Valid.fresh
          split
          · exact hvalid'.add _
          · exact hvalid'
      | broken s =>
          rw [hcode] at hread hloop
          obtain ⟨e, -, h⟩ := hloop.of_broken
          have hvalid' := h.valid
          rw [← h.sim.hist] at hvalid'
          injection hread with hr
          rw [← hr]
          exact hvalid'

end TateFirmware.Cli
