import TateFirmware.Support.Ring
import TateFirmware.Support.Run

/-!
# The input of the network console

`nc_input_packet` of `drivers/netconsole.c` puts the characters of a packet into
`input_buffer`, and `nc_getc` takes them out.  The buffer is a ring kept as the place
of its first character and their number; a packet may be copied in two pieces.

`nc_getc` and `nc_tstc` run the net loop while they wait, in which packets arrive and
both may be called again.  Over every such sequence the console answers like a queue
of at most 512 characters, if its port is below 32768: `nc_port` is a signed `short`,
and a port from there on compares unequal to the port of any packet.
-/

namespace TateFirmware.Console

open Support

/-! ## The source -/

/-- `sizeof input_buffer`. -/
def sizeofInputBuffer : ℕ := 512

/-- `input_buffer`, `input_size` and `input_offset`. -/
structure NcInput where
  inputBuffer : Memory UInt8
  inputSize : ℕ
  inputOffset : ℕ

/-- The cells of `input_buffer` that a statement reads or writes. -/
structure BufferAccess where
  start : ℕ
  count : ℕ
deriving DecidableEq, Repr

/-- The assignment of the number behind the colon of `ncip` to `nc_port`. -/
def ncPortOf (port : ℕ) : Int16 := Int16.ofNat port

/-- `nc_port`, converted to `unsigned` for the comparison with the port of a
packet. -/
def portOf (ncPort : Int16) : ℕ := (ncPort.toInt % 2 ^ 32).toNat

/-- `end` of `nc_input_packet`: the place behind the last character. -/
def NcInput.stop (st : NcInput) : ℕ :=
  let stop := st.inputOffset + st.inputSize
  if stop > sizeofInputBuffer then stop - sizeofInputBuffer else stop

/-- The copy of `len` bytes at the end of `nc_input_packet`, and the parts of
`input_buffer` copied to. -/
def NcInput.put (st : NcInput) (pkt : Memory UInt8) (len : ℕ) :
    NcInput × List BufferAccess :=
  if st.stop + len > sizeofInputBuffer then
    let chunk := sizeofInputBuffer - st.stop
    let buffer := st.inputBuffer.copyIn 0 (pkt.read chunk (len - chunk))
    ({ st with
        inputBuffer := buffer.copyIn st.stop (pkt.read 0 chunk)
        inputSize := st.inputSize + len },
      [⟨0, len - chunk⟩, ⟨st.stop, chunk⟩])
  else
    ({ st with
        inputBuffer := st.inputBuffer.copyIn st.stop (pkt.read 0 len)
        inputSize := st.inputSize + len },
      [⟨st.stop, len⟩])

/-- `nc_input_packet`, with its return value. -/
def ncInputPacket (ncPort : Int16) (pkt : Memory UInt8) (dest len : ℕ)
    (st : NcInput) : ℕ × NcInput × List BufferAccess :=
  if dest ≠ portOf ncPort ∨ len = 0 then (0, st, [])
  else if st.inputSize = sizeofInputBuffer then (1, st, [])
  else if len > sizeofInputBuffer - st.inputSize then
    (1, st.put pkt (sizeofInputBuffer - st.inputSize))
  else (1, st.put pkt len)

/-- The end of `nc_getc`, behind its loop: the character, and where it was read. -/
def ncTake (st : NcInput) : UInt8 × NcInput × BufferAccess :=
  let offset := st.inputOffset + 1
  (st.inputBuffer st.inputOffset,
    { st with
      inputOffset := if offset ≥ sizeofInputBuffer then offset - sizeofInputBuffer
        else offset
      inputSize := st.inputSize - 1 },
    ⟨st.inputOffset, 1⟩)

/-- A call that waits in its net loop. -/
inductive NcCall where
  | getc
  | tstc
deriving DecidableEq, Repr

/-- The console, with the calls that wait, innermost first. -/
structure NcState where
  input : NcInput
  inputRecursion : Bool
  calls : List NcCall

/-- What can happen to the console. -/
inductive NcEvent where
  /-- A packet of `len` bytes at `pkt` for the port `dest`. -/
  | packet (pkt : Memory UInt8) (dest len : ℕ)
  | getc
  /-- `active` if the network device is, inside a net loop. -/
  | tstc (active : Bool)
  /-- The net loop of the innermost call that waits ends. -/
  | loopEnds

/-- What a call returns. -/
inductive NcResult where
  | getc (c : UInt8)
  | tstc (waiting : Bool)
deriving DecidableEq, Repr

/-- What a step does that can be seen. -/
inductive NcOutput where
  | result (r : NcResult)
  | access (a : BufferAccess)
deriving DecidableEq, Repr

/-- `nc_getc` behind its loop. -/
def NcState.finishGetc (st : NcState) : NcState × List NcOutput :=
  let (c, input, a) := ncTake st.input
  ({ st with input := input, inputRecursion := false },
    [.access a, .result (.getc c)])

/-- One event; `nc_getc` goes on with its loop as long as there is no input. -/
def ncStep (ncPort : Int16) (st : NcState) : NcEvent → NcState × List NcOutput
  | .packet pkt dest len =>
      let (_, input, accesses) := ncInputPacket ncPort pkt dest len st.input
      ({ st with input := input }, accesses.map .access)
  | .getc =>
      if st.input.inputSize = 0 then
        ({ st with inputRecursion := true, calls := .getc :: st.calls }, [])
      else st.finishGetc
  | .tstc active =>
      if st.inputRecursion then (st, [.result (.tstc false)])
      else if st.input.inputSize ≠ 0 then (st, [.result (.tstc true)])
      else if active then (st, [.result (.tstc false)])
      else ({ st with inputRecursion := true, calls := .tstc :: st.calls }, [])
  | .loopEnds =>
      match st.calls with
      | [] => (st, [])
      | .getc :: calls =>
          if st.input.inputSize = 0 then (st, [])
          else { st with calls := calls }.finishGetc
      | .tstc :: calls =>
          ({ st with inputRecursion := false, calls := calls },
            [.result (.tstc (st.input.inputSize ≠ 0))])

/-! ## The queue -/

/-- A console whose input is a queue. -/
structure QueueState where
  queue : List UInt8
  inputRecursion : Bool
  calls : List NcCall

/-- Return the first character of the queue. -/
def QueueState.pop (st : QueueState) : QueueState × List NcResult :=
  match st.queue with
  | [] => (st, [])
  | c :: queue => ({ st with queue := queue, inputRecursion := false }, [.getc c])

/-- The queue takes as much of a packet for the port of the console as it has room
for. -/
def queueConsole (port : UInt16) (st : QueueState) :
    NcEvent → QueueState × List NcResult
  | .packet pkt dest len =>
      if dest = port.toNat then
        ({ st with
            queue := st.queue ++
              pkt.read 0 (min len (sizeofInputBuffer - st.queue.length)) }, [])
      else (st, [])
  | .getc =>
      if st.queue = [] then
        ({ st with inputRecursion := true, calls := .getc :: st.calls }, [])
      else st.pop
  | .tstc active =>
      if st.inputRecursion then (st, [.tstc false])
      else if st.queue ≠ [] then (st, [.tstc true])
      else if active then (st, [.tstc false])
      else ({ st with inputRecursion := true, calls := .tstc :: st.calls }, [])
  | .loopEnds =>
      match st.calls with
      | [] => (st, [])
      | .getc :: calls =>
          if st.queue = [] then (st, []) else { st with calls := calls }.pop
      | .tstc :: calls =>
          ({ st with inputRecursion := false, calls := calls },
            [.tstc (st.queue ≠ [])])

/-! ## One step -/

/-- The buffer keeps the queue. -/
structure KeepsInput (st : NcInput) (queue : List UInt8) : Prop where
  rings : Rings st.inputBuffer 0 sizeofInputBuffer st.inputOffset queue
  size_eq : st.inputSize = queue.length

/-- An access inside `input_buffer`. -/
def BufferAccess.Inside (a : BufferAccess) : Prop :=
  a.start + a.count ≤ sizeofInputBuffer

namespace KeepsInput

variable {st : NcInput} {queue : List UInt8}

theorem size_eq_zero_iff (h : KeepsInput st queue) :
    st.inputSize = 0 ↔ queue = [] := by
  rw [h.size_eq, List.length_eq_zero_iff]

theorem stop_eq (h : KeepsInput st queue) :
    st.stop = if st.inputOffset + queue.length > sizeofInputBuffer then
      st.inputOffset + queue.length - sizeofInputBuffer
      else st.inputOffset + queue.length := by
  rw [← h.size_eq]
  rfl

/-- The cells behind the queue, from the place `nc_input_packet` computes on; it
may be the end of the buffer. -/
theorem ringAt_behind (h : KeepsInput st queue) {i : ℕ}
    (hi : queue.length + i < sizeofInputBuffer) :
    ringAt 0 sizeofInputBuffer st.inputOffset (queue.length + i) =
      if st.stop + i < sizeofInputBuffer then st.stop + i
      else st.stop + i - sizeofInputBuffer := by
  have hlt := h.rings.lt
  rw [Nat.zero_add] at hlt
  rw [ringAt, Nat.zero_add, h.stop_eq]
  split_ifs <;> omega

theorem stop_le (h : KeepsInput st queue) : st.stop ≤ sizeofInputBuffer := by
  have hlt := h.rings.lt
  have hroom := h.rings.room
  rw [Nat.zero_add] at hlt
  rw [h.stop_eq]
  split_ifs <;> omega

/-- Copied in one piece or in two, the characters stand behind the queue. -/
theorem put (h : KeepsInput st queue) (pkt : Memory UInt8) {n : ℕ}
    (hroom : queue.length + n ≤ sizeofInputBuffer) :
    KeepsInput (st.put pkt n).1 (queue ++ pkt.read 0 n) ∧
      ∀ a ∈ (st.put pkt n).2, a.Inside := by
  have hstop := h.stop_le
  have hlt := h.rings.lt
  rw [Nat.zero_add] at hlt
  have hsize : st.inputSize + n = (queue ++ pkt.read 0 n).length := by
    rw [h.size_eq, List.length_append, Memory.read_length]
  -- the cells of the queue are not among those copied to
  have hqueue : ∀ i < queue.length,
      ringAt 0 sizeofInputBuffer st.inputOffset i =
        if st.inputOffset + i < sizeofInputBuffer then st.inputOffset + i
        else st.inputOffset + i - sizeofInputBuffer := by
    intro i _
    rw [ringAt, Nat.zero_add]
  have hstop_eq := h.stop_eq
  have hitem : ∀ i < (pkt.read 0 n).length, (pkt.read 0 n)[i]? = some (pkt i) := by
    intro i hi
    rw [List.getElem?_eq_getElem hi, Memory.read_getElem, Nat.zero_add]
  unfold NcInput.put
  split
  · rename_i hwrap
    refine ⟨⟨h.rings.append (by rwa [Memory.read_length]) ?_ ?_, hsize⟩, ?_⟩
    · intro i hi
      dsimp only
      rw [Memory.copyIn_read, Memory.copyIn_read, hqueue i hi, if_neg ?_, if_neg ?_]
      all_goals
        split_ifs at hstop_eq ⊢ <;> omega
    · intro i hi
      rw [hitem i hi]
      rw [Memory.read_length] at hi
      dsimp only
      rw [Memory.copyIn_read, Memory.copyIn_read, h.ringAt_behind (by omega)]
      split_ifs <;> first | omega | exact congrArg (fun k => some (pkt k)) (by omega)
    · intro a ha
      simp only [List.mem_cons, List.not_mem_nil, or_false] at ha
      unfold BufferAccess.Inside
      rcases ha with rfl | rfl
      · dsimp only
        omega
      · dsimp only
        omega
  · rename_i hstraight
    refine ⟨⟨h.rings.append (by rwa [Memory.read_length]) ?_ ?_, hsize⟩, ?_⟩
    · intro i hi
      dsimp only
      rw [Memory.copyIn_read, hqueue i hi, if_neg ?_]
      split_ifs at hstop_eq ⊢ <;> omega
    · intro i hi
      rw [hitem i hi]
      rw [Memory.read_length] at hi
      dsimp only
      rw [Memory.copyIn_read, h.ringAt_behind (by omega)]
      split_ifs <;> first | omega | exact congrArg (fun k => some (pkt k)) (by omega)
    · intro a ha
      obtain rfl := List.mem_singleton.mp ha
      unfold BufferAccess.Inside
      dsimp only
      omega

/-- A packet is appended as far as there is room. -/
theorem packet (h : KeepsInput st queue) (ncPort : Int16) (pkt : Memory UInt8)
    (dest len : ℕ) :
    KeepsInput (ncInputPacket ncPort pkt dest len st).2.1
        (if dest = portOf ncPort then
          queue ++ pkt.read 0 (min len (sizeofInputBuffer - queue.length))
        else queue) ∧
      ∀ a ∈ (ncInputPacket ncPort pkt dest len st).2.2, a.Inside := by
  have hroom := h.rings.room
  have hnothing : min len (sizeofInputBuffer - queue.length) = 0 →
      KeepsInput st (queue ++
        pkt.read 0 (min len (sizeofInputBuffer - queue.length))) := by
    intro hzero
    rw [hzero]
    simpa [Memory.read] using h
  unfold ncInputPacket
  by_cases hdest : dest = portOf ncPort
  · rw [if_pos hdest]
    by_cases hlen : len = 0
    · rw [if_pos (Or.inr hlen)]
      exact ⟨hnothing (by omega), by simp⟩
    · rw [if_neg (not_or.mpr ⟨not_not.mpr hdest, hlen⟩), h.size_eq]
      by_cases hfull : queue.length = sizeofInputBuffer
      · rw [if_pos hfull]
        exact ⟨hnothing (by omega), by simp⟩
      · rw [if_neg hfull]
        split
        · rw [Nat.min_eq_right (by omega)]
          exact h.put pkt (by omega)
        · rw [Nat.min_eq_left (by omega)]
          exact h.put pkt (by omega)
  · rw [if_neg hdest, if_pos (Or.inl hdest)]
    exact ⟨h, by simp⟩

/-- The character taken is the first one. -/
theorem take {c : UInt8} (h : KeepsInput st (c :: queue)) :
    (ncTake st).1 = c ∧ KeepsInput (ncTake st).2.1 queue ∧
      (ncTake st).2.2.Inside := by
  obtain ⟨hfirst, hrest⟩ := h.rings.pop
  have hlt := h.rings.lt
  have hnext : ringNext 0 sizeofInputBuffer st.inputOffset =
      if st.inputOffset + 1 ≥ sizeofInputBuffer then
        st.inputOffset + 1 - sizeofInputBuffer else st.inputOffset + 1 := by
    unfold ringNext
    split_ifs <;> omega
  refine ⟨hfirst, ⟨?_, ?_⟩, ?_⟩
  · rw [hnext] at hrest
    exact hrest
  · show st.inputSize - 1 = queue.length
    rw [h.size_eq, List.length_cons, Nat.add_sub_cancel]
  · show st.inputOffset + 1 ≤ sizeofInputBuffer
    omega

end KeepsInput

/-! ## Runs -/

/-- The console keeps the queue and waits in the same calls. -/
structure SameConsole (st : NcState) (st' : QueueState) : Prop where
  keeps : KeepsInput st.input st'.queue
  inputRecursion_eq : st.inputRecursion = st'.inputRecursion
  calls_eq : st.calls = st'.calls

/-- The result in an output. -/
def NcOutput.result? : NcOutput → Option NcResult
  | .result r => some r
  | .access _ => none

/-- An access inside `input_buffer`; a result is none. -/
def NcOutput.Inside : NcOutput → Prop
  | .result _ => True
  | .access a => a.Inside

theorem finishGetc_same {st : NcState} {st' : QueueState}
    (h : SameConsole st st') (hne : st'.queue ≠ []) :
    SameConsole st.finishGetc.1 st'.pop.1 ∧
      st.finishGetc.2.filterMap NcOutput.result? = st'.pop.2 ∧
      ∀ o ∈ st.finishGetc.2, o.Inside := by
  obtain ⟨queue, recursion, calls⟩ := st'
  cases queue with
  | nil => exact absurd rfl hne
  | cons c queue =>
      obtain ⟨hchar, hkeeps, hinside⟩ := h.keeps.take
      refine ⟨⟨hkeeps, rfl, h.calls_eq⟩, ?_, ?_⟩
      · simp only [NcState.finishGetc, QueueState.pop, hchar]
        rfl
      · intro o ho
        simp only [NcState.finishGetc, List.mem_cons, List.not_mem_nil,
          or_false] at ho
        rcases ho with rfl | rfl
        exacts [hinside, trivial]

/-- A port below 32768 is the one that packets are compared with. -/
theorem portOf_ncPortOf {port : UInt16} (h : port.toNat < 2 ^ 15) :
    portOf (ncPortOf port.toNat) = port.toNat := by
  have hint : (ncPortOf port.toNat).toInt = port.toNat := Int16.toInt_ofNat_of_lt h
  rw [portOf, hint]
  omega

/-- A port from 32768 on is compared with packets as a number of more than 16 bits. -/
theorem portOf_ncPortOf_ne {port : UInt16} (h : 2 ^ 15 ≤ port.toNat) :
    portOf (ncPortOf port.toNat) ≠ port.toNat := by
  have hlt := port.toNat_lt
  have hint : (ncPortOf port.toNat).toInt = (port.toNat : ℤ) - 2 ^ 16 := by
    have hsize : (Int16.size : ℤ) = 2 ^ 16 := rfl
    rw [ncPortOf, Int16.toInt_ofNat', Int.bmod_eq_emod, hsize]
    split_ifs <;> omega
  rw [portOf, hint]
  omega

/-- One event is answered as by the queue. -/
theorem ncStep_same {port : UInt16} (hport : portOf (ncPortOf port.toNat) = port.toNat)
    (st : NcState) (st' : QueueState) (e : NcEvent) (h : SameConsole st st') :
    SameConsole (ncStep (ncPortOf port.toNat) st e).1 (queueConsole port st' e).1 ∧
      (ncStep (ncPortOf port.toNat) st e).2.filterMap NcOutput.result? =
        (queueConsole port st' e).2 ∧
      ∀ o ∈ (ncStep (ncPortOf port.toNat) st e).2, o.Inside := by
  have hempty := h.keeps.size_eq_zero_iff
  have hanswer : ∀ b, SameConsole st st' ∧
      [NcOutput.result (.tstc b)].filterMap NcOutput.result? = [.tstc b] ∧
      ∀ o ∈ [NcOutput.result (.tstc b)], o.Inside :=
    fun b => ⟨h, rfl, fun o ho => List.mem_singleton.mp ho ▸ trivial⟩
  cases e with
  | packet pkt dest len =>
      obtain ⟨hpacket, hinside⟩ := h.keeps.packet (ncPortOf port.toNat) pkt dest len
      rw [hport] at hpacket
      have hresults : ∀ as : List BufferAccess,
          (as.map NcOutput.access).filterMap NcOutput.result? = [] := by
        intro as
        rw [List.filterMap_map]
        exact List.filterMap_eq_nil_iff.mpr fun _ _ => rfl
      have houtputs : ∀ o ∈ (ncStep (ncPortOf port.toNat) st (.packet pkt dest len)).2,
          o.Inside := by
        intro o ho
        obtain ⟨a, ha, rfl⟩ := List.mem_map.mp ho
        exact hinside a ha
      simp only [queueConsole]
      split_ifs at hpacket ⊢
      · exact ⟨⟨hpacket, h.inputRecursion_eq, h.calls_eq⟩, hresults _, houtputs⟩
      · exact ⟨⟨hpacket, h.inputRecursion_eq, h.calls_eq⟩, hresults _, houtputs⟩
  | getc =>
      simp only [ncStep, queueConsole, hempty]
      by_cases hqueue : st'.queue = []
      · simp only [if_pos hqueue]
        exact ⟨⟨h.keeps, rfl, congrArg _ h.calls_eq⟩, rfl, by simp⟩
      · simp only [if_neg hqueue]
        exact finishGetc_same h hqueue
  | tstc active =>
      simp only [ncStep, queueConsole, hempty, h.inputRecursion_eq, ne_eq]
      by_cases hrecursion : st'.inputRecursion = true
      · simp only [if_pos hrecursion]
        exact hanswer false
      · simp only [if_neg hrecursion]
        by_cases hqueue : st'.queue = []
        · simp only [if_neg (not_not.mpr hqueue)]
          cases active with
          | true => exact hanswer false
          | false => exact ⟨⟨h.keeps, rfl, congrArg _ h.calls_eq⟩, rfl, by simp⟩
        · simp only [if_pos hqueue]
          exact hanswer true
  | loopEnds =>
      simp only [ncStep, queueConsole, h.calls_eq, hempty]
      cases hcalls : st'.calls with
      | nil => exact ⟨h, rfl, by simp⟩
      | cons call calls =>
          cases call with
          | getc =>
              by_cases hqueue : st'.queue = []
              · simp only [if_pos hqueue]
                exact ⟨h, rfl, by simp⟩
              · simp only [if_neg hqueue]
                exact finishGetc_same ⟨h.keeps, h.inputRecursion_eq, rfl⟩ hqueue
          | tstc =>
              refine ⟨⟨h.keeps, rfl, rfl⟩, ?_, ?_⟩
              · simp only [ne_eq, hempty]
                rfl
              · exact fun o ho => List.mem_singleton.mp ho ▸ trivial

/-- The console configured for a port answers like the queue over a sequence of
events, and stays inside `input_buffer`. -/
def RefinesQueue (port : UInt16) (buffer : Memory UInt8) (events : List NcEvent) : Prop :=
  (run (ncStep (ncPortOf port.toNat)) ⟨⟨buffer, 0, 0⟩, false, []⟩ events).2.filterMap
      NcOutput.result? =
      (run (queueConsole port) ⟨[], false, []⟩ events).2 ∧
    (∀ o ∈ (run (ncStep (ncPortOf port.toNat)) ⟨⟨buffer, 0, 0⟩, false, []⟩ events).2,
      o.Inside) ∧
    (run (queueConsole port) ⟨[], false, []⟩ events).1.queue.length ≤
      sizeofInputBuffer

theorem refinesQueue_of_lt {port : UInt16} (h : port.toNat < 2 ^ 15)
    (buffer : Memory UInt8) (events : List NcEvent) : RefinesQueue port buffer events := by
  have hinit : SameConsole ⟨⟨buffer, 0, 0⟩, false, []⟩ ⟨[], false, []⟩ :=
    ⟨⟨Rings.nil buffer le_rfl (Nat.zero_lt_succ _), rfl⟩, rfl, rfl⟩
  obtain ⟨hsame, hresults, hinside⟩ :=
    run_simulates (ncStep_same (portOf_ncPortOf h)) hinit events
  exact ⟨hresults, hinside, hsame.keeps.rings.room⟩

/-- A character is sent to a port, and then read. -/
def sentAndRead (port : UInt16) : List NcEvent :=
  [.packet (fun _ => 0) port.toNat 1, .getc]

/-- The character does not arrive at a port from 32768 on. -/
theorem not_refinesQueue_sentAndRead {port : UInt16} (h : 2 ^ 15 ≤ port.toNat)
    (buffer : Memory UInt8) : ¬ RefinesQueue port buffer (sentAndRead port) := by
  have hother : port.toNat ≠ portOf (ncPortOf port.toNat) := (portOf_ncPortOf_ne h).symm
  have hcode : (run (ncStep (ncPortOf port.toNat)) ⟨⟨buffer, 0, 0⟩, false, []⟩
      (sentAndRead port)).2 = [] := by
    simp only [sentAndRead, run, ncStep, ncInputPacket, if_pos (Or.inl hother)]
    rfl
  have hqueue : (run (queueConsole port) ⟨[], false, []⟩ (sentAndRead port)).2 =
      [.getc 0] := by
    simp only [sentAndRead, run, queueConsole, if_true]
    rfl
  rintro ⟨hresults, -, -⟩
  rw [hcode, hqueue] at hresults
  cases hresults

/-- Over every sequence of packets, calls and ends of the net loop the console
answers like the queue, exactly if its port is below 32768. -/
theorem netconsole_refines_iff (port : UInt16) :
    (∀ (buffer : Memory UInt8) (events : List NcEvent), RefinesQueue port buffer events) ↔
      port.toNat < 2 ^ 15 := by
  constructor
  · intro hall
    by_contra hge
    exact not_refinesQueue_sentAndRead (Nat.le_of_not_lt hge) (fun _ => 0)
      (hall _ (sentAndRead port))
  · intro h buffer events
    exact refinesQueue_of_lt h buffer events

/-- The port 40000 loses its packets. -/
theorem not_netconsole_refines :
    ¬ ∀ (port : UInt16) (buffer : Memory UInt8) (events : List NcEvent),
      RefinesQueue port buffer events := by
  intro hall
  have hport : 2 ^ 15 ≤ (40000 : UInt16).toNat := by decide
  exact not_refinesQueue_sentAndRead hport (fun _ => 0) (hall _ _ _)

end TateFirmware.Console
