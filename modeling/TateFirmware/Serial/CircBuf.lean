import TateFirmware.Support.Ring
import TateFirmware.Support.Run

/-!
# The circular buffers of the USB serial line

`buf_push` and `buf_pop` move bytes into and out of a circular buffer, one byte
at a time; both wrap their pointer at `end`.  A push into a full buffer
overwrites the oldest byte and moves `top` on.

The buffer is a ring (`Rings`), so that over any sequence of calls it answers
like a queue that keeps the last `totalsize` bytes.
-/

namespace TateFirmware.Serial

open TateFirmware.Support

/-! ## The source -/

/-- `circbuf_t`, with the bytes `data` points to. -/
structure Circbuf where
  size : ℕ
  totalsize : ℕ
  top : ℕ
  tail : ℕ
  data : ℕ
  dataEnd : ℕ
  mem : Memory UInt8

/-- `buf_init`, for a block that `malloc` returned at `data`. -/
def bufInit (mem : Memory UInt8) (data size : ℕ) : Circbuf where
  size := 0
  totalsize := size
  top := data
  tail := data
  data := data
  dataEnd := data + size
  mem := mem

namespace Circbuf

/-- The bounds check behind each step of a pointer. -/
def wrapPointer (buf : Circbuf) (p : ℕ) : ℕ :=
  if p = buf.dataEnd then buf.data else p

/-- The loop of `buf_pop`: the bytes copied to `dest`, and `p` behind them. -/
def popLoop (buf : Circbuf) : ℕ → ℕ → List UInt8 × ℕ
  | 0, p => ([], p)
  | len + 1, p =>
      (buf.mem p :: (buf.popLoop len (buf.wrapPointer (p + 1))).1,
        (buf.popLoop len (buf.wrapPointer (p + 1))).2)

/-- One byte of `buf_push`, stored at `p`. -/
def pushByte (buf : Circbuf) (p : ℕ) (byte : UInt8) : Circbuf × ℕ :=
  let stored := { buf with mem := buf.mem.store p byte }
  if buf.size < buf.totalsize then
    ({ stored with size := buf.size + 1 }, buf.wrapPointer (p + 1))
  else
    ({ stored with top := buf.wrapPointer (buf.top + 1) },
      buf.wrapPointer (p + 1))

/-- The loop of `buf_push`. -/
def pushLoop (buf : Circbuf) (p : ℕ) : List UInt8 → Circbuf × ℕ
  | [] => (buf, p)
  | byte :: src =>
      (buf.pushByte p byte).1.pushLoop (buf.pushByte p byte).2 src

end Circbuf

/-- `buf_pop`: the bytes copied to `dest` and the value returned. -/
def bufPop (buf : Circbuf) (len : ℕ) : Circbuf × List UInt8 × ℕ :=
  let len := if len > buf.size then buf.size else len
  ({ buf with top := (buf.popLoop len buf.top).2, size := buf.size - len },
    (buf.popLoop len buf.top).1, len)

/-- `buf_push` of the `len` bytes of `src`, with the value returned. -/
def bufPush (buf : Circbuf) (src : List UInt8) : Circbuf × ℕ :=
  ({ (buf.pushLoop buf.tail src).1 with
      tail := (buf.pushLoop buf.tail src).2 }, src.length)

/-! ## Calls and answers -/

/-- A call on a circular buffer. -/
inductive BufCall where
  | push (src : List UInt8)
  | pop (len : ℕ)
deriving DecidableEq, Repr

/-- What a call returns, with the bytes stored at `dest`. -/
inductive BufAnswer where
  | pushed (len : ℕ)
  | popped (dest : List UInt8) (len : ℕ)
deriving DecidableEq, Repr

/-- One call on the buffer of the source. -/
def bufStep (buf : Circbuf) : BufCall → Circbuf × List BufAnswer
  | .push src => ((bufPush buf src).1, [.pushed (bufPush buf src).2])
  | .pop len =>
      ((bufPop buf len).1, [.popped (bufPop buf len).2.1 (bufPop buf len).2.2])

/-- One call on the queue that keeps the last `totalsize` bytes. -/
def queueStep (totalsize : ℕ) (q : List UInt8) :
    BufCall → List UInt8 × List BufAnswer
  | .push src => ((q ++ src).rtake totalsize, [.pushed src.length])
  | .pop len => (q.drop len, [.popped (q.take len) (q.take len).length])

/-! ## One call -/

namespace Circbuf

/-- The buffer keeps the queue `q`, with the place `p` behind its last byte. -/
structure KeepsBefore (buf : Circbuf) (p : ℕ) (q : List UInt8) : Prop where
  rings : Rings buf.mem buf.data buf.totalsize buf.top q
  size_eq : buf.size = q.length
  dataEnd_eq : buf.dataEnd = buf.data + buf.totalsize
  behind : p = ringAt buf.data buf.totalsize buf.top q.length

/-- The buffer keeps the queue `q`. -/
abbrev Keeps (buf : Circbuf) (q : List UInt8) : Prop :=
  buf.KeepsBefore buf.tail q

variable {buf : Circbuf} {p : ℕ} {q : List UInt8}

theorem keeps_bufInit (mem : Memory UInt8) (data : ℕ) {size : ℕ}
    (hsize : 0 < size) : (bufInit mem data size).Keeps [] where
  rings := Rings.nil mem le_rfl (Nat.lt_add_of_pos_right hsize)
  size_eq := rfl
  dataEnd_eq := rfl
  behind := (ringAt_zero (Nat.lt_add_of_pos_right hsize)).symm

theorem wrapPointer_succ (hend : buf.dataEnd = buf.data + buf.totalsize)
    (p : ℕ) :
    buf.wrapPointer (p + 1) = ringNext buf.data buf.totalsize p := by
  rw [wrapPointer, ringNext, hend]

/-- The bytes popped are the oldest ones, and `p` ends behind them. -/
theorem popLoop_spec (hend : buf.dataEnd = buf.data + buf.totalsize)
    {top : ℕ} (hrings : Rings buf.mem buf.data buf.totalsize top q)
    {len : ℕ} (hlen : len ≤ q.length) :
    (buf.popLoop len top).1 = q.take len ∧
      Rings buf.mem buf.data buf.totalsize (buf.popLoop len top).2
        (q.drop len) ∧
      ringAt buf.data buf.totalsize (buf.popLoop len top).2 (q.drop len).length =
        ringAt buf.data buf.totalsize top q.length := by
  induction len generalizing top q with
  | zero => exact ⟨rfl, hrings, rfl⟩
  | succ len ih =>
      cases q with
      | nil => exact absurd hlen (Nat.not_succ_le_zero len)
      | cons byte q =>
          obtain ⟨hfirst, hrest⟩ := hrings.pop
          obtain ⟨hbytes, hrings', hbehind⟩ :=
            ih hrest (Nat.le_of_succ_le_succ hlen)
          rw [popLoop, wrapPointer_succ hend, hfirst]
          refine ⟨?_, hrings', ?_⟩
          · rw [hbytes, List.take_succ_cons]
          · rw [List.drop_succ_cons, hbehind, hrings.tail_pop]

/-- `buf_pop` removes the oldest bytes and returns them. -/
theorem Keeps.pop (h : buf.Keeps q) (len : ℕ) :
    (bufPop buf len).1.Keeps (q.drop len) ∧
      (bufPop buf len).2 = (q.take len, (q.take len).length) := by
  have hcap : (if len > buf.size then buf.size else len) = min len q.length := by
    rw [h.size_eq]
    split_ifs <;> omega
  obtain ⟨hbytes, hrings, hbehind⟩ :=
    popLoop_spec h.dataEnd_eq h.rings (Nat.min_le_right len q.length)
  have htake : q.take (min len q.length) = q.take len := List.take_eq_take_min.symm
  have hdrop : q.drop (min len q.length) = q.drop len := by
    rcases le_total len q.length with hle | hle
    · rw [min_eq_left hle]
    · rw [min_eq_right hle, List.drop_length, List.drop_eq_nil_of_le hle]
  rw [hdrop] at hrings hbehind
  simp only [bufPop, hcap]
  refine ⟨⟨hrings, ?_, h.dataEnd_eq, h.behind.trans hbehind.symm⟩, ?_⟩
  · change buf.size - min len q.length = (q.drop len).length
    rw [h.size_eq, List.length_drop]
    omega
  · rw [hbytes, htake, List.length_take]

/-- The queue is what lies between `top` and `tail`. -/
theorem Keeps.popLoop_size (h : buf.Keeps q) :
    buf.popLoop buf.size buf.top = (q, buf.tail) := by
  obtain ⟨hbytes, hrings, hbehind⟩ := popLoop_spec h.dataEnd_eq h.rings le_rfl
  rw [List.drop_length, List.length_nil, ringAt_zero hrings.lt] at hbehind
  rw [List.take_length] at hbytes
  rw [h.size_eq]
  exact Prod.ext hbytes (hbehind.trans h.behind.symm)

/-- A byte pushed is appended, the oldest one dropped if the buffer is full. -/
theorem KeepsBefore.pushByte (h : buf.KeepsBefore p q) (byte : UInt8) :
    (buf.pushByte p byte).1.KeepsBefore (buf.pushByte p byte).2
      (pushBounded buf.totalsize q byte) := by
  obtain ⟨hrings, hsize, hend, rfl⟩ := h
  rw [Circbuf.pushByte, pushBounded, hsize]
  split_ifs with hroom
  · refine ⟨hrings.push hroom byte, ?_, hend, ?_⟩
    · rw [List.length_append, List.length_singleton]
    · rw [wrapPointer_succ hend, ringNext_at hrings.lt hroom, List.length_append,
        List.length_singleton]
  · have hfull : q.length = buf.totalsize := le_antisymm hrings.room (by omega)
    cases q with
    | nil =>
        have hlt := hrings.lt
        have hge := hrings.ge
        rw [List.length_nil] at hfull
        omega
    | cons oldest q =>
        rw [List.length_cons] at hfull
        refine ⟨?_, ?_, hend, ?_⟩
        · simp only [wrapPointer_succ hend]
          exact hrings.push_full hfull byte
        · rw [List.cons_append, List.tail_cons, List.length_append]
          rfl
        · simp only [wrapPointer_succ hend]
          rw [List.length_cons, hfull, ringAt_full hrings.ge, List.cons_append,
            List.tail_cons, List.length_append, List.length_singleton, hfull,
            ringAt_full (ringNext_inside hrings.ge hrings.lt).1]

/-- Two states of one buffer: the block is the same. -/
def SameBlock (buf buf' : Circbuf) : Prop :=
  buf'.totalsize = buf.totalsize ∧ buf'.data = buf.data

theorem SameBlock.trans {buf'' : Circbuf} {buf' : Circbuf}
    (h : buf.SameBlock buf') (h' : buf'.SameBlock buf'') : buf.SameBlock buf'' :=
  ⟨h'.1.trans h.1, h'.2.trans h.2⟩

theorem pushByte_sameBlock (buf : Circbuf) (p : ℕ) (byte : UInt8) :
    buf.SameBlock (buf.pushByte p byte).1 := by
  rw [Circbuf.pushByte]
  split_ifs <;> exact ⟨rfl, rfl⟩

theorem pushLoop_sameBlock (buf : Circbuf) (p : ℕ) (src : List UInt8) :
    buf.SameBlock (buf.pushLoop p src).1 := by
  induction src generalizing buf p with
  | nil => exact ⟨rfl, rfl⟩
  | cons byte src ih => exact (buf.pushByte_sameBlock p byte).trans (ih _ _)

theorem KeepsBefore.pushLoop (h : buf.KeepsBefore p q) (src : List UInt8) :
    (buf.pushLoop p src).1.KeepsBefore (buf.pushLoop p src).2
      (src.foldl (pushBounded buf.totalsize) q) := by
  induction src generalizing buf p q with
  | nil => exact h
  | cons byte src ih =>
      have hnext := ih (h.pushByte byte)
      rw [(buf.pushByte_sameBlock p byte).1] at hnext
      exact hnext

/-- `buf_push` leaves the last `totalsize` bytes. -/
theorem Keeps.push (h : buf.Keeps q) (src : List UInt8) :
    (bufPush buf src).1.Keeps ((q ++ src).rtake buf.totalsize) := by
  obtain ⟨hrings, hsize, hend, hbehind⟩ := KeepsBefore.pushLoop h src
  rw [foldl_pushBounded h.rings.room] at hrings hsize hbehind
  exact ⟨hrings, hsize, hend, hbehind⟩

/-- `tail` stays in the block, also behind a full queue. -/
theorem Keeps.tail_inside (h : buf.Keeps q) :
    buf.data ≤ buf.tail ∧ buf.tail < buf.dataEnd := by
  rw [h.behind, h.dataEnd_eq]
  exact h.rings.tail_inside

theorem Keeps.top_inside (h : buf.Keeps q) :
    buf.data ≤ buf.top ∧ buf.top < buf.dataEnd := by
  rw [h.dataEnd_eq]
  exact ⟨h.rings.ge, h.rings.lt⟩

end Circbuf

/-! ## Runs of calls -/

theorem bufStep_sameBlock (buf : Circbuf) (call : BufCall) :
    buf.SameBlock (bufStep buf call).1 := by
  cases call with
  | push src => exact buf.pushLoop_sameBlock buf.tail src
  | pop len => exact ⟨rfl, rfl⟩

/-- One call answers as the queue does and keeps the queue it leaves. -/
theorem bufStep_keeps {buf : Circbuf} {q : List UInt8} (h : buf.Keeps q)
    (call : BufCall) :
    (bufStep buf call).1.Keeps (queueStep buf.totalsize q call).1 ∧
      (bufStep buf call).2 = (queueStep buf.totalsize q call).2 := by
  cases call with
  | push src => exact ⟨h.push src, rfl⟩
  | pop len =>
      obtain ⟨hkeeps, hanswer⟩ := h.pop len
      refine ⟨hkeeps, ?_⟩
      rw [bufStep, hanswer]
      rfl

/-- Any sequence of calls answers as on the queue. -/
theorem run_keeps {buf : Circbuf} {q : List UInt8} (h : buf.Keeps q)
    (calls : List BufCall) :
    let after := run bufStep buf calls
    let queue := run (queueStep buf.totalsize) q calls
    after.1.Keeps queue.1 ∧ after.2 = queue.2 ∧ buf.SameBlock after.1 := by
  induction calls generalizing buf q with
  | nil => exact ⟨h, rfl, rfl, rfl⟩
  | cons call calls ih =>
      obtain ⟨hkeeps, hanswer⟩ := bufStep_keeps h call
      have hblock := bufStep_sameBlock buf call
      obtain ⟨hrest, hanswers, hblock'⟩ := ih hkeeps
      rw [hblock.1] at hrest hanswers
      refine ⟨hrest, ?_, hblock.trans hblock'⟩
      rw [run_cons, run_cons, hanswer, hanswers]

/-- The buffer and the answers are those of the queue: `size` is its length, its
bytes lie from `top` to `tail`, and both pointers are in the block. -/
structure Refines (buf : Circbuf) (answers : List BufAnswer) (data totalsize : ℕ)
    (queue : List UInt8 × List BufAnswer) : Prop where
  answers_eq : answers = queue.2
  size_eq : buf.size = queue.1.length
  kept : buf.popLoop buf.size buf.top = (queue.1, buf.tail)
  block : buf.data = data ∧ buf.dataEnd = data + totalsize
  top_inside : buf.data ≤ buf.top ∧ buf.top < buf.dataEnd
  tail_inside : buf.data ≤ buf.tail ∧ buf.tail < buf.dataEnd

/-- From a new buffer on, every sequence of pushes and pops is one on the
bounded queue. -/
theorem circbuf_refines (mem : Memory UInt8) (data size : ℕ) (hsize : 0 < size)
    (calls : List BufCall) :
    Refines (run bufStep (bufInit mem data size) calls).1
      (run bufStep (bufInit mem data size) calls).2 data size
      (run (queueStep size) [] calls) := by
  obtain ⟨hkeeps, hanswers, hblock⟩ :=
    run_keeps (Circbuf.keeps_bufInit mem data hsize) calls
  obtain ⟨htotal, hdata⟩ := hblock
  refine ⟨hanswers, hkeeps.size_eq, ?_, ⟨hdata, ?_⟩, hkeeps.top_inside,
    hkeeps.tail_inside⟩
  · exact hkeeps.popLoop_size
  · rw [hkeeps.dataEnd_eq, htotal, hdata]
    rfl

theorem circbuf_refines_overwrites :
    Refines (run bufStep (bufInit (fun _ => 0) 100 3) [.push [1, 2, 3, 4], .pop 2]).1
      (run bufStep (bufInit (fun _ => 0) 100 3) [.push [1, 2, 3, 4], .pop 2]).2 100 3
      ([4], [.pushed 4, .popped [2, 3] 2]) :=
  circbuf_refines _ 100 3 (by decide) [.push [1, 2, 3, 4], .pop 2]

end TateFirmware.Serial
