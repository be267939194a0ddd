import TateFirmware.Cli.History

/-!
# Reading a command line

`cread_line` of `common/main.c` reads key strokes, edits the line in `buf` and
returns when Enter or Ctrl-C is pressed.  `num` is the cursor and `eol_num` the end
of the line.  What is echoed to the console is left out.
-/

namespace TateFirmware.Cli

open LibGeneric Support

/-- `CTL_CH(c)`. -/
def ctlCh (c : Char) : UInt8 := ch c - ch 'a' + 1

def del : UInt8 := 255

def del7 : UInt8 := 127

def creadHistChar : UInt8 := ch '!'

/-- The variables of `cread_line`; `esc_save` holds the `esc_len` characters saved. -/
structure LineState where
  buf : List UInt8
  num : ℕ
  eolNum : ℕ
  insert : Bool
  escSave : List UInt8
  hist : History

/-- The loop of `cread_line`: it goes on, or it has been left by Enter or Ctrl-C. -/
inductive Loop (σ : Type*) where
  | editing (s : σ)
  | entered (s : σ)
  | broken (s : σ)

/-- Feed key strokes to a loop. -/
def Loop.run {σ : Type*} (key : UInt8 → σ → Loop σ) : Loop σ → List UInt8 → Loop σ
  | .editing s, ichar :: keys => Loop.run key (key ichar s) keys
  | loop, _ => loop

/-! ## Editing -/

def beginningOfLine (s : LineState) : LineState := { s with num := 0 }

def eraseToEol (s : LineState) : LineState :=
  if s.num < s.eolNum then { s with eolNum := s.num } else s

def refreshToEol (s : LineState) : LineState :=
  if s.num < s.eolNum then { s with num := s.eolNum } else s

def creadAddChar (len : ℕ) (ichar : UInt8) (s : LineState) : LineState :=
  if (s.insert ∨ s.num = s.eolNum) ∧ s.eolNum > len - 1 then s
  else
    let eolNum := if s.insert ∨ s.num = s.eolNum then s.eolNum + 1 else s.eolNum
    if s.insert then
      let wlen := eolNum - s.num
      let buf := if wlen > 1 then memmove s.buf (s.num + 1) s.num (wlen - 1) else s.buf
      { s with buf := patch buf s.num [ichar], num := s.num + 1, eolNum := eolNum }
    else
      { s with buf := patch s.buf s.num [ichar], num := s.num + 1, eolNum := eolNum }

def creadAddStr (len : ℕ) (str : List UInt8) (s : LineState) : LineState :=
  str.foldl (fun s ichar => creadAddChar len ichar s) s

/-- What the decoder of escape sequences makes of a character: it is saved, saved
characters are added to the line, or it goes on to the `switch`. -/
inductive Decoded where
  | saved (escSave : List UInt8)
  | added (str : List UInt8)
  | key (ichar : UInt8)

def decodeEsc (escSave : List UInt8) (ichar : UInt8) : Decoded :=
  if escSave.length = 0 then .key ichar
  else if escSave.length = 1 then
    if ichar = ch '[' then .saved (escSave ++ [ichar]) else .added escSave
  else if ichar = ch 'D' then .key (ctlCh 'b')
  else if ichar = ch 'C' then .key (ctlCh 'f')
  else if ichar = ch 'H' then .key (ctlCh 'a')
  else if ichar = ch 'A' then .key (ctlCh 'p')
  else if ichar = ch 'B' then .key (ctlCh 'n')
  else .added (escSave ++ [ichar])

/-- The labels of `switch (ichar)`. -/
inductive KeyCase where
  | escape
  | home
  | brk
  | forward
  | back
  | delete
  | kill
  | toEnd
  | toggle
  | clear
  | rubout
  | prev
  | next
  | char
deriving DecidableEq

def keyCase (ichar : UInt8) : KeyCase :=
  if ichar = 0x1b then .escape
  else if ichar = ctlCh 'a' then .home
  else if ichar = ctlCh 'c' then .brk
  else if ichar = ctlCh 'f' then .forward
  else if ichar = ctlCh 'b' then .back
  else if ichar = ctlCh 'd' then .delete
  else if ichar = ctlCh 'k' then .kill
  else if ichar = ctlCh 'e' then .toEnd
  else if ichar = ctlCh 'o' then .toggle
  else if ichar = ctlCh 'x' then .clear
  else if ichar = del ∨ ichar = del7 ∨ ichar = 8 then .rubout
  else if ichar = ctlCh 'p' then .prev
  else if ichar = ctlCh 'n' then .next
  else .char

/-- The line recalled by `^P` and `^N`, and the history behind the call. -/
def recallHist (k : KeyCase) (hist : History) : Option (List UInt8) × History :=
  if k = .prev then histPrev hist else histNext hist

/-- Put a line of the history in place of the line. -/
def copyLine (hline : List UInt8) (s : LineState) : LineState :=
  let s := eraseToEol (beginningOfLine s)
  let buf := patch s.buf 0 (hline ++ [0])
  refreshToEol { s with buf := buf, eolNum := (cstr buf).length }

/-- `^P` and `^N`. -/
def recallLine (k : KeyCase) (s : LineState) : LineState :=
  match recallHist k s.hist with
  | (none, hist) => { s with hist := hist }
  | (some hline, hist) => copyLine hline { s with hist := hist }

/-- `switch (ichar)`. -/
def switchKey (len : ℕ) (ichar : UInt8) (s : LineState) : Loop LineState :=
  match keyCase ichar with
  | .escape => .editing { s with escSave := if s.escSave = [] then [ichar] else [] }
  | .home => .editing (beginningOfLine s)
  | .brk => .broken s
  | .forward =>
      .editing (if s.num < s.eolNum then { s with num := s.num + 1 } else s)
  | .back => .editing (if s.num ≠ 0 then { s with num := s.num - 1 } else s)
  | .delete =>
      .editing (if s.num < s.eolNum then
        { s with
          buf := memmove s.buf s.num (s.num + 1) (s.eolNum - s.num - 1)
          eolNum := s.eolNum - 1 }
      else s)
  | .kill => .editing (eraseToEol s)
  | .toEnd => .editing (refreshToEol s)
  | .toggle => .editing { s with insert := !s.insert }
  | .clear => .editing (eraseToEol (beginningOfLine s))
  | .rubout =>
      .editing (if s.num ≠ 0 then
        { s with
          buf := memmove s.buf (s.num - 1) s.num (s.eolNum - s.num)
          num := s.num - 1
          eolNum := s.eolNum - 1 }
      else s)
  | .prev => .editing (recallLine .prev s)
  | .next => .editing (recallLine .next s)
  | .char => .editing (creadAddChar len ichar s)

/-- One round of the loop. -/
def creadKey (len : ℕ) (ichar : UInt8) (s : LineState) : Loop LineState :=
  if ichar = ch '\n' ∨ ichar = ch '\r' then .entered s
  else
    match decodeEsc s.escSave ichar with
    | .saved escSave => .editing { s with escSave := escSave }
    | .added str => .editing { creadAddStr len str s with escSave := [] }
    | .key ichar => switchKey len ichar { s with escSave := [] }

/-! ## The line that is read -/

/-- What `cread_line` leaves behind. -/
structure ReadLine where
  rc : ℤ
  len : ℕ
  buf : List UInt8
  hist : History

/-- `cread_line` waits for the next key, or it has returned. -/
inductive Cread where
  | waiting (s : LineState)
  | returned (r : ReadLine)

/-- The variables at the start of `cread_line`. -/
def startLine (buf : List UInt8) (hist : History) : LineState where
  buf := buf
  num := 0
  eolNum := 0
  insert := true
  escSave := []
  hist := hist

/-- The loop of `cread_line(buf, &len)`. -/
def editLoop (buf : List UInt8) (len : ℕ) (hist : History) (keys : List UInt8) :
    Loop LineState :=
  Loop.run (creadKey len) (.editing (startLine buf hist)) keys

/-- What `cread_line` does behind its loop. -/
def enterLine (s : LineState) : ReadLine :=
  let buf := patch s.buf s.eolNum [0]
  let hist :=
    if peek buf ≠ 0 ∧ peek buf ≠ creadHistChar then creadAddToHist buf s.hist
    else s.hist
  ⟨0, s.eolNum, buf, hist.fresh⟩

/-- `cread_line(buf, &len)` on a sequence of key strokes. -/
def creadLine (buf : List UInt8) (len : ℕ) (hist : History) (keys : List UInt8) :
    Cread :=
  match editLoop buf len hist keys with
  | .editing s => .waiting s
  | .entered s => .returned (enterLine s)
  | .broken s => .returned ⟨-1, len, patch s.buf 0 [0], s.hist⟩

end TateFirmware.Cli
