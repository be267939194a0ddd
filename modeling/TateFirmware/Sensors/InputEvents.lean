import TateFirmware.Support.Ring
import TateFirmware.Support.Rounds
import TateFirmware.Support.Run

/-!
# Reading sensor events

`InputEventCircularReader` keeps the events of a descriptor in a ring that it fills
when it is empty, with one `readv` into at most two segments.  `readEvent` gives a
pointer to the oldest event and `next` goes on to the following one.
`IioSensorBase::readEvents` takes the events of its channel from the reader.
-/

namespace TateFirmware.Sensors

open Support

/-! ## The reader -/

/-- `struct iio_event_data`. -/
structure IioEventData where
  id : ℕ
  timestamp : ℤ
deriving DecidableEq, Repr

/-- What `readv` answers: an error number, or events; it stores no more of them than
were asked for. -/
abbrev Answer := Except ℕ (List IioEventData)

/-- `EAGAIN`. -/
def eagain : ℕ := 11

/-- `EINVAL`. -/
def einval : ℤ := 22

/-- `InputEventCircularReader`, with pointers into `mBuffer` as indices. -/
structure InputEventCircularReader where
  mBuffer : Memory IioEventData
  mHead : ℕ
  mCurr : ℕ
  mMaxEvents : ℕ
  mFreeEvents : ℕ

/-- The constructor, for a new buffer. -/
def InputEventCircularReader.new (buffer : Memory IioEventData) (numEvents : ℕ) :
    InputEventCircularReader :=
  ⟨buffer, 0, 0, numEvents, numEvents⟩

/-- What can be seen of a call: events read from the descriptor, cells of `mBuffer`
accessed, and an event that the caller is done with. -/
inductive ReaderOutput where
  | read (events : List IioEventData)
  | access (start count : ℕ)
  | delivered (event : IioEventData)

/-- The reader, the answers of its descriptor to come, and the pointer that the last
`readEvent` has given, until `next`. -/
structure ReaderState where
  reader : InputEventCircularReader
  answers : List Answer
  pointed : Option ℕ

/-- A new reader. -/
def ReaderState.new (buffer : Memory IioEventData) (numEvents : ℕ)
    (answers : List Answer) : ReaderState :=
  ⟨.new buffer numEvents, answers, none⟩

/-- The next answer of the descriptor; it has nothing more to read behind the last
one. -/
def ReaderState.answer (st : ReaderState) : Answer × List Answer :=
  match st.answers with
  | [] => (.error eagain, [])
  | answer :: answers => (answer, answers)

/-- `fill`, with its return value. -/
def ReaderState.fill (st : ReaderState) : ℤ × ReaderState × List ReaderOutput :=
  let r := st.reader
  if r.mFreeEvents ≠ 0 then
    let numFirst := min r.mFreeEvents (r.mMaxEvents - r.mHead)
    let numSecond := r.mFreeEvents - numFirst
    let (answer, answers) := st.answer
    match answer with
    | .error errno => (-errno, { st with answers := answers }, [])
    | .ok events =>
        let events := events.take (numFirst + numSecond)
        let buffer := (r.mBuffer.copyIn r.mHead (events.take numFirst)).copyIn 0
          (events.drop numFirst)
        let head := r.mHead + events.length
        (events.length,
          { st with
            reader := { r with
              mBuffer := buffer
              mHead := if r.mMaxEvents ≤ head then head - r.mMaxEvents else head
              mFreeEvents := r.mFreeEvents - events.length }
            answers := answers },
          [.read events, .access r.mHead (events.take numFirst).length,
            .access 0 (events.drop numFirst).length])
  else (0, st, [])

/-- `readEvent`, with its return value. -/
def ReaderState.readEvent (st : ReaderState) :
    Bool × ReaderState × List ReaderOutput :=
  if st.reader.mMaxEvents ≤ st.reader.mFreeEvents then
    let (eventCount, st, outputs) := st.fill
    if eventCount ≤ 0 then (false, { st with pointed := none }, outputs)
    else (true, { st with pointed := some st.reader.mCurr }, outputs)
  else (true, { st with pointed := some st.reader.mCurr }, [])

/-- `next`.  The caller has looked at the event that it has a pointer to. -/
def ReaderState.next (st : ReaderState) : ReaderState × List ReaderOutput :=
  let r := st.reader
  ({ st with
      reader := { r with
        mCurr := if r.mMaxEvents ≤ r.mCurr + 1 then 0 else r.mCurr + 1
        mFreeEvents := if r.mFreeEvents < r.mMaxEvents then r.mFreeEvents + 1
          else r.mFreeEvents }
      pointed := none },
    st.pointed.toList.flatMap fun p => [.access p 1, .delivered (r.mBuffer p)])

/-- A call on the reader. -/
inductive ReaderCall where
  | readEvent
  | next
deriving DecidableEq, Repr

def readerStep (st : ReaderState) : ReaderCall → ReaderState × List ReaderOutput
  | .readEvent => st.readEvent.2
  | .next => st.next

/-- `next` is called after a successful `readEvent`. -/
def NextAfterRead (st : ReaderState) (call : ReaderCall) : Prop :=
  call = .next → st.pointed.isSome

/-! ## The sensor -/

/-- `IIO_EVENT_CODE_EXTRACT_CHAN_TYPE`. -/
def extractChanType (id : ℕ) : ℕ := id >>> 32 &&& 0xFF

/-- `sensors_event_t`; the driver fills in `data`. -/
structure SensorsEvent (δ : Type) where
  timestamp : ℤ
  data : δ

/-- `IioSensorBase`, with what `readValue` gives from now on. -/
structure IioSensorBase (δ : Type) where
  mEnabled : Bool
  mHasPendingEvent : Bool
  mInputReader : ReaderState
  mPendingEvent : SensorsEvent δ
  mIioChanType : ℕ
  values : List (Option ℤ)

/-- `readValue`. -/
def IioSensorBase.readValue {δ : Type} (sensor : IioSensorBase δ) :
    Option ℤ × IioSensorBase δ :=
  (sensor.values.head?.join, { sensor with values := sensor.values.tail })

/-- What `readEvents` keeps in its variables: the events stored at `data`, and the room
left for others. -/
structure EventReading (δ : Type) where
  sensor : IioSensorBase δ
  count : ℤ
  stored : List (SensorsEvent δ)

section
variable {δ : Type} (handleData : ℤ → δ → δ)

/-- What `readEvents` does with an event. -/
def EventReading.handle (reading : EventReading δ) (event : IioEventData) :
    EventReading δ :=
  if extractChanType event.id = reading.sensor.mIioChanType then
    if reading.sensor.mEnabled then
      match reading.sensor.readValue with
      | (some value, sensor) =>
          let pending := ⟨event.timestamp, handleData value sensor.mPendingEvent.data⟩
          ⟨{ sensor with mPendingEvent := pending }, reading.count - 1,
            reading.stored ++ [pending]⟩
      | (none, sensor) => { reading with sensor := sensor }
    else reading
  else reading

/-- One pass of the loop of `readEvents`. -/
def readEventsRound (reading : EventReading δ) : EventReading δ ⊕ EventReading δ :=
  if reading.count ≠ 0 then
    let (found, reader, _) := reading.sensor.mInputReader.readEvent
    let reading := { reading with sensor.mInputReader := reader }
    if found then
      let event := reader.reader.mBuffer reader.reader.mCurr
      let reading := reading.handle handleData event
      .inr { reading with sensor.mInputReader := reading.sensor.mInputReader.next.1 }
    else .inl reading
  else .inl reading

/-- `IioSensorBase::readEvents` at the time `timestamp`, with its return value and the
events stored at `data`. -/
def IioSensorBase.readEvents (sensor : IioSensorBase δ) (timestamp count : ℤ)
    (fuel : ℕ) : Option (ℤ × List (SensorsEvent δ) × IioSensorBase δ) :=
  if count < 1 then some (-einval, [], sensor)
  else if sensor.mHasPendingEvent then
    let sensor := { sensor with mHasPendingEvent := false }
    if sensor.mEnabled then
      let pending := { sensor.mPendingEvent with timestamp := timestamp }
      some (1, [pending], { sensor with mPendingEvent := pending })
    else some (0, [], sensor)
  else
    (roundLoop (readEventsRound handleData) fuel ⟨sensor, count, []⟩).map fun reading =>
      (reading.stored.length, reading.stored, reading.sensor)

end

/-! ## What it keeps -/

/-- The events read from the descriptor. -/
def eventsRead (outputs : List ReaderOutput) : List IioEventData :=
  outputs.flatMap fun
    | .read events => events
    | _ => []

/-- The events delivered. -/
def eventsDelivered (outputs : List ReaderOutput) : List IioEventData :=
  outputs.flatMap fun
    | .delivered event => [event]
    | _ => []

/-- An access inside a buffer of `numEvents` cells. -/
def ReaderOutput.Inside (numEvents : ℕ) : ReaderOutput → Prop
  | .access start count => start + count ≤ numEvents
  | _ => True

/-- The ring holds the events `q`, read and not delivered yet, and the caller has no
pointer but one to the first of them. -/
structure Holds (numEvents : ℕ) (st : ReaderState) (q : List IioEventData) :
    Prop where
  max : st.reader.mMaxEvents = numEvents
  free : st.reader.mFreeEvents + q.length = numEvents
  rings : 0 < numEvents → Rings st.reader.mBuffer 0 numEvents st.reader.mCurr q
  head : 0 < numEvents → st.reader.mHead = ringAt 0 numEvents st.reader.mCurr q.length
  pointed : ∀ p, st.pointed = some p → p = st.reader.mCurr ∧ q ≠ []

@[simp] theorem eventsRead_append (outputs outputs' : List ReaderOutput) :
    eventsRead (outputs ++ outputs') = eventsRead outputs ++ eventsRead outputs' :=
  List.flatMap_append

@[simp] theorem eventsDelivered_append (outputs outputs' : List ReaderOutput) :
    eventsDelivered (outputs ++ outputs') =
      eventsDelivered outputs ++ eventsDelivered outputs' :=
  List.flatMap_append

variable {numEvents : ℕ} {st : ReaderState} {q : List IioEventData}

theorem holds_new (buffer : Memory IioEventData) (numEvents : ℕ)
    (answers : List Answer) : Holds numEvents (.new buffer numEvents answers) [] where
  max := rfl
  free := rfl
  rings := fun hpos => .nil buffer (Nat.zero_le _) (by rwa [Nat.zero_add])
  head := fun hpos => (ringAt_zero (by rwa [Nat.zero_add])).symm
  pointed := nofun

/-- What `fill` reads goes behind the events in the ring. -/
theorem fill_holds (h : Holds numEvents st q) :
    ∃ items, Holds numEvents st.fill.2.1 (q ++ items) ∧
      eventsRead st.fill.2.2 = items ∧ eventsDelivered st.fill.2.2 = [] ∧
      (∀ o ∈ st.fill.2.2, o.Inside numEvents) ∧ (st.fill.1 ≤ 0 ↔ items = []) := by
  obtain ⟨hmax, hfree, hrings, hhead, hpointed⟩ := h
  unfold ReaderState.fill
  by_cases hroom : st.reader.mFreeEvents = 0
  · rw [if_neg (not_not.mpr hroom)]
    exact ⟨[], by simpa using ⟨hmax, hfree, hrings, hhead, hpointed⟩, rfl, rfl, by simp,
      by simp⟩
  · rw [if_pos hroom]
    have hpos : 0 < numEvents := by omega
    replace hrings := hrings hpos
    replace hhead := hhead hpos
    obtain ⟨-, hlt⟩ := hrings.tail_inside
    rw [← hhead, Nat.zero_add] at hlt
    have hcurr := hrings.lt
    rcases st.answer with ⟨errno | events, answers⟩
    · refine ⟨[], ?_, rfl, rfl, by simp, by simp⟩
      rw [List.append_nil]
      exact ⟨hmax, hfree, fun _ => hrings, fun _ => hhead, hpointed⟩
    · -- the part up to the end of the buffer, and the one at its start
      obtain ⟨numFirst, hfirst⟩ : ∃ n,
        n = min st.reader.mFreeEvents (st.reader.mMaxEvents - st.reader.mHead) := ⟨_, rfl⟩
      simp only [← hfirst]
      obtain ⟨items, hitems⟩ : ∃ items, items =
        events.take (numFirst + (st.reader.mFreeEvents - numFirst)) := ⟨_, rfl⟩
      simp only [← hitems]
      have hlength : items.length ≤ st.reader.mFreeEvents := by
        have := List.length_take_le (numFirst + (st.reader.mFreeEvents - numFirst)) events
        rw [← hitems] at this
        omega
      have hxs : (items.take numFirst).length = min numFirst items.length :=
        List.length_take
      have hys : (items.drop numFirst).length = items.length - numFirst :=
        List.length_drop
      have hcopied : Rings ((st.reader.mBuffer.copyIn st.reader.mHead
          (items.take numFirst)).copyIn 0 (items.drop numFirst)) 0 numEvents
          st.reader.mCurr (q ++ (items.take numFirst ++ items.drop numFirst)) :=
        hrings.append_copyIn hhead (by omega) (by omega) (by omega)
      rw [List.take_append_drop] at hcopied
      refine ⟨items, ⟨hmax, ?_, fun _ => hcopied, fun _ => ?_, ?_⟩, ?_, rfl, ?_, ?_⟩
      · rw [List.length_append]
        simp only
        omega
      · simp only [List.length_append]
        rw [hmax]
        rw [hhead] at hlt ⊢
        unfold ringAt at *
        split_ifs at * <;> omega
      · intro p hp
        obtain ⟨rfl, hne⟩ := hpointed p hp
        exact ⟨rfl, by simp [hne]⟩
      · simp [eventsRead]
      · simp only [List.mem_cons, List.not_mem_nil, or_false]
        rintro o (rfl | rfl | rfl)
        · trivial
        · show st.reader.mHead + (items.take numFirst).length ≤ numEvents
          omega
        · show 0 + (items.drop numFirst).length ≤ numEvents
          omega
      · simp

/-- A `readEvent` succeeds unless nothing is left in the ring behind it. -/
theorem readEvent_holds (h : Holds numEvents st q) :
    ∃ items, Holds numEvents st.readEvent.2.1 (q ++ items) ∧
      eventsRead st.readEvent.2.2 = items ∧ eventsDelivered st.readEvent.2.2 = [] ∧
      (∀ o ∈ st.readEvent.2.2, o.Inside numEvents) ∧
      (st.readEvent.1 = false ↔ q ++ items = []) ∧
      (st.readEvent.1 = true → st.readEvent.2.1.pointed.isSome) := by
  unfold ReaderState.readEvent
  have hmax := h.max
  have hfree := h.free
  by_cases hempty : st.reader.mMaxEvents ≤ st.reader.mFreeEvents
  · obtain rfl : q = [] := List.eq_nil_of_length_eq_zero (by omega)
    obtain ⟨items, hfill, hread, hdelivered, hinside, hnone⟩ := fill_holds h
    simp only [if_pos hempty]
    by_cases hcount : st.fill.1 ≤ 0
    · obtain rfl := hnone.mp hcount
      simp only [if_pos hcount]
      exact ⟨[], ⟨hfill.max, hfill.free, hfill.rings, hfill.head, nofun⟩, hread,
        hdelivered, hinside, by simp, nofun⟩
    · have hne : items ≠ [] := fun hnil => hcount (hnone.mpr hnil)
      simp only [if_neg hcount]
      exact ⟨items, ⟨hfill.max, hfill.free, hfill.rings, hfill.head,
        fun p hp => ⟨(Option.some.inj hp).symm, by simpa using hne⟩⟩, hread, hdelivered,
        hinside, by simpa using hne, fun _ => rfl⟩
  · have hne : q ≠ [] := by
      rintro rfl
      rw [List.length_nil] at hfree
      omega
    rw [if_neg hempty]
    refine ⟨[], ?_, rfl, rfl, by simp, by simpa using hne, fun _ => rfl⟩
    rw [List.append_nil]
    exact ⟨h.max, h.free, h.rings, h.head,
      fun p hp => ⟨(Option.some.inj hp).symm, hne⟩⟩

/-- `next` delivers the oldest event. -/
theorem next_holds (h : Holds numEvents st q) (hread : st.pointed.isSome) :
    ∃ event q', q = event :: q' ∧ Holds numEvents st.next.1 q' ∧
      eventsRead st.next.2 = [] ∧ eventsDelivered st.next.2 = [event] ∧
      ∀ o ∈ st.next.2, o.Inside numEvents := by
  obtain ⟨p, hp⟩ := Option.isSome_iff_exists.mp hread
  obtain ⟨rfl, hne⟩ := h.pointed p hp
  obtain ⟨event, q', rfl⟩ := List.exists_cons_of_ne_nil hne
  have hmax := h.max
  have hfree := h.free
  rw [List.length_cons] at hfree
  have hpos : 0 < numEvents := by omega
  obtain ⟨hevent, hrest⟩ := (h.rings hpos).pop
  have hlt := (h.rings hpos).lt
  rw [Nat.zero_add] at hlt
  have hcurr : (if st.reader.mMaxEvents ≤ st.reader.mCurr + 1 then 0
      else st.reader.mCurr + 1) = ringNext 0 numEvents st.reader.mCurr := by
    unfold ringNext
    split_ifs <;> omega
  refine ⟨event, q', rfl, ⟨hmax, ?_, fun _ => ?_, fun _ => ?_, nofun⟩, ?_, ?_, ?_⟩
  · simp only [ReaderState.next]
    rw [if_pos (by omega)]
    omega
  · simp only [ReaderState.next, hcurr]
    exact hrest
  · simp only [ReaderState.next, hcurr]
    rw [h.head hpos, (h.rings hpos).tail_pop]
  · simp [ReaderState.next, hp, eventsRead]
  · simp [ReaderState.next, hp, eventsDelivered, hevent]
  · simp only [ReaderState.next, hp, Option.toList_some, List.flatMap_cons,
      List.flatMap_nil, List.append_nil, List.mem_cons, List.not_mem_nil, or_false]
    rintro o (rfl | rfl)
    · exact hlt
    · trivial

/-- What a call leaves in the ring. -/
theorem readerStep_holds {call : ReaderCall} (h : Holds numEvents st q)
    (hcall : NextAfterRead st call) :
    ∃ q', Holds numEvents (readerStep st call).1 q' ∧
      q ++ eventsRead (readerStep st call).2 =
        eventsDelivered (readerStep st call).2 ++ q' ∧
      ∀ o ∈ (readerStep st call).2, o.Inside numEvents := by
  cases call with
  | readEvent =>
      obtain ⟨items, hholds, hread, hdelivered, hinside, -⟩ := readEvent_holds h
      refine ⟨q ++ items, hholds, ?_, hinside⟩
      simp only [readerStep, hread, hdelivered, List.nil_append]
  | next =>
      obtain ⟨event, q', rfl, hholds, hread, hdelivered, hinside⟩ :=
        next_holds h (hcall rfl)
      refine ⟨q', hholds, ?_, hinside⟩
      simp only [readerStep, hread, hdelivered, List.append_nil, List.singleton_append]

/-- What the calls leave in the ring. -/
theorem readerRun_holds {calls : List ReaderCall} (h : Holds numEvents st q)
    (hcalls : StepsMeet readerStep NextAfterRead st calls) :
    ∃ q', Holds numEvents (run readerStep st calls).1 q' ∧
      q ++ eventsRead (run readerStep st calls).2 =
        eventsDelivered (run readerStep st calls).2 ++ q' ∧
      ∀ o ∈ (run readerStep st calls).2, o.Inside numEvents := by
  induction calls generalizing st q with
  | nil => exact ⟨q, h, List.append_nil q, by simp⟩
  | cons call calls ih =>
      obtain ⟨hcall, hrest⟩ := hcalls
      obtain ⟨q₁, hholds, hkept, hinside⟩ := readerStep_holds h hcall
      obtain ⟨q', hholds', hkept', hinside'⟩ := ih hholds hrest
      refine ⟨q', hholds', ?_, fun o ho => ?_⟩
      · rw [run_cons, eventsRead_append, eventsDelivered_append, ← List.append_assoc,
          hkept, List.append_assoc, hkept', List.append_assoc]
      · rcases List.mem_append.mp ho with ho | ho
        exacts [hinside o ho, hinside' o ho]

/-! ## What the sensor leaves -/

section
variable {δ : Type} (handleData : ℤ → δ → δ)

theorem EventReading.handle_reader (reading : EventReading δ) (event : IioEventData) :
    (reading.handle handleData event).sensor.mInputReader =
      reading.sensor.mInputReader := by
  unfold EventReading.handle IioSensorBase.readValue
  cases reading.sensor.values.head?.join <;> split_ifs <;> rfl

/-- An event takes room where it is stored. -/
theorem EventReading.handle_count (reading : EventReading δ) (event : IioEventData) :
    (reading.handle handleData event).stored.length +
        (reading.handle handleData event).count =
      reading.stored.length + reading.count ∧
    reading.count - 1 ≤ (reading.handle handleData event).count := by
  unfold EventReading.handle IioSensorBase.readValue
  cases reading.sensor.values.head?.join <;> split_ifs <;> simp

/-- A `fill` that gives events takes an answer of the descriptor. -/
theorem fill_answers (h : 0 < st.fill.1) :
    st.fill.2.1.answers.length < st.answers.length := by
  unfold ReaderState.fill at h ⊢
  by_cases hroom : st.reader.mFreeEvents = 0
  · rw [if_neg (not_not.mpr hroom)] at h
    exact absurd h (lt_irrefl 0)
  · rw [if_pos hroom] at h ⊢
    unfold ReaderState.answer at h ⊢
    cases hanswers : st.answers with
    | nil =>
        simp only [hanswers] at h
        omega
    | cons answer answers => cases answer <;> exact Nat.lt_succ_self _

/-- What the descriptor has to give and the ring holds. -/
def ReaderState.ahead (numEvents : ℕ) (st : ReaderState) : ℕ :=
  (numEvents + 1) * st.answers.length + (numEvents - st.reader.mFreeEvents)

theorem readEvent_ahead (h : st.readEvent.1 = true) :
    st.readEvent.2.1.ahead numEvents ≤ st.ahead numEvents := by
  unfold ReaderState.readEvent at h ⊢
  by_cases hempty : st.reader.mMaxEvents ≤ st.reader.mFreeEvents
  · simp only [if_pos hempty] at h ⊢
    by_cases hcount : st.fill.1 ≤ 0
    · simp [if_pos hcount] at h
    · simp only [if_neg hcount]
      show st.fill.2.1.ahead numEvents ≤ st.ahead numEvents
      unfold ReaderState.ahead
      have hless := fill_answers (not_le.mp hcount)
      have hmul : (numEvents + 1) * (st.fill.2.1.answers.length + 1) ≤
          (numEvents + 1) * st.answers.length := Nat.mul_le_mul_left _ hless
      rw [Nat.mul_add, Nat.mul_one] at hmul
      omega
  · rw [if_neg hempty]
    rfl

theorem next_ahead (h : Holds numEvents st q) (hne : q ≠ []) :
    st.next.1.ahead numEvents < st.ahead numEvents := by
  have hmax := h.max
  have hfree := h.free
  have hpos := List.length_pos_iff.mpr hne
  simp only [ReaderState.ahead, ReaderState.next]
  rw [if_pos (by omega)]
  omega

/-- What `readEvents` keeps: the reader has gone on by calls from `start`, and `count`
is the room for events besides those stored. -/
structure GoesOn (numEvents : ℕ) (start : ReaderState) (count : ℤ)
    (reading : EventReading δ) : Prop where
  holds : ∃ q, Holds numEvents reading.sensor.mInputReader q
  calls : ∃ calls, StepsMeet readerStep NextAfterRead start calls ∧
    (run readerStep start calls).1 = reading.sensor.mInputReader
  room : reading.stored.length + reading.count = count
  nonneg : 0 ≤ reading.count

/-- One more call. -/
theorem calls_snoc {start st' : ReaderState} {call : ReaderCall}
    (h : ∃ calls, StepsMeet readerStep NextAfterRead start calls ∧
      (run readerStep start calls).1 = st)
    (hcall : NextAfterRead st call) (hstep : (readerStep st call).1 = st') :
    ∃ calls, StepsMeet readerStep NextAfterRead start calls ∧
      (run readerStep start calls).1 = st' := by
  obtain ⟨calls, hmeet, rfl⟩ := h
  refine ⟨calls ++ [call], stepsMeet_append.mpr ⟨hmeet, hcall, trivial⟩, ?_⟩
  rw [run_append]
  exact hstep

/-- A pass that goes on has delivered an event. -/
theorem readEventsRound_next {start : ReaderState} {count : ℤ}
    {reading reading' : EventReading δ} (h : GoesOn numEvents start count reading)
    (hround : RoundNext (readEventsRound handleData) reading reading') :
    GoesOn numEvents start count reading' ∧
      reading'.sensor.mInputReader.ahead numEvents <
        reading.sensor.mInputReader.ahead numEvents := by
  obtain ⟨⟨q, hq⟩, hcalls, hroom, hnonneg⟩ := h
  obtain ⟨items, hholds, -, -, -, hfalse, hpointed⟩ := readEvent_holds hq
  unfold RoundNext readEventsRound at hround
  by_cases hcount : reading.count = 0
  · rw [if_neg (not_not.mpr hcount)] at hround
    cases hround
  rw [if_pos hcount] at hround
  cases hfound : reading.sensor.mInputReader.readEvent.1 with
  | false =>
      simp only [hfound] at hround
      cases hround
  | true =>
      simp only [hfound, if_true, Sum.inr.injEq] at hround
      have hne : q ++ items ≠ [] := fun hnil => by
        rw [hfalse.mpr hnil] at hfound
        cases hfound
      have hread : ∃ calls, StepsMeet readerStep NextAfterRead start calls ∧
          (run readerStep start calls).1 = reading.sensor.mInputReader.readEvent.2.1 :=
        calls_snoc hcalls (show NextAfterRead _ .readEvent from nofun) rfl
      have hnext := calls_snoc hread (show NextAfterRead _ .next from
        fun _ => hpointed hfound) rfl
      obtain ⟨event, q', hq', hholds', -⟩ := next_holds hholds (hpointed hfound)
      subst hround
      have hreader := EventReading.handle_reader handleData
        { reading with sensor.mInputReader := reading.sensor.mInputReader.readEvent.2.1 }
      obtain ⟨hstored, hless⟩ := EventReading.handle_count handleData
        { reading with sensor.mInputReader := reading.sensor.mInputReader.readEvent.2.1 }
        (reading.sensor.mInputReader.readEvent.2.1.reader.mBuffer
          reading.sensor.mInputReader.readEvent.2.1.reader.mCurr)
      simp only [hreader]
      refine ⟨⟨⟨q', hholds'⟩, hnext, hstored.trans hroom, ?_⟩, ?_⟩
      · have hpos : 0 ≤ reading.count - 1 := by omega
        exact hpos.trans hless
      · exact (next_ahead hholds hne).trans_le (readEvent_ahead hfound)

/-- A pass that ends the loop has stored all the events or left none. -/
theorem readEventsRound_end {start : ReaderState} {count : ℤ}
    {reading reading' : EventReading δ} (h : GoesOn numEvents start count reading)
    (hround : readEventsRound handleData reading = .inl reading') :
    GoesOn numEvents start count reading' ∧
      (reading'.count ≠ 0 → Holds numEvents reading'.sensor.mInputReader []) := by
  obtain ⟨⟨q, hq⟩, hcalls, hroom, hnonneg⟩ := h
  obtain ⟨items, hholds, -, -, -, hfalse, -⟩ := readEvent_holds hq
  unfold readEventsRound at hround
  by_cases hcount : reading.count = 0
  · rw [if_neg (not_not.mpr hcount)] at hround
    cases hround
    exact ⟨⟨⟨q, hq⟩, hcalls, hroom, hnonneg⟩, fun h => absurd hcount h⟩
  rw [if_pos hcount] at hround
  cases hfound : reading.sensor.mInputReader.readEvent.1 with
  | true =>
      simp only [hfound, if_true] at hround
      cases hround
  | false =>
      rw [hfalse.mp hfound] at hholds
      simp only [hfound] at hround
      cases hround
      exact ⟨⟨⟨[], hholds⟩, calls_snoc hcalls (show NextAfterRead _ .readEvent from nofun)
        rfl, hroom, hnonneg⟩, fun _ => hholds⟩

/-- Through any calls made in turn, the reader delivers the events read from the
descriptor in order, each once; those that it has not delivered are in the ring, and it
accesses no cell outside the buffer.  `readEvents`, called then, goes on with such calls
and returns with no more than `count` events; where it has none pending and returns
fewer, it leaves no event in the ring. -/
theorem inputReader_delivers (numEvents : ℕ) (buffer : Memory IioEventData)
    (answers : List Answer) (calls : List ReaderCall)
    (hcalls : StepsMeet readerStep NextAfterRead (.new buffer numEvents answers) calls) :
    (∃ q, Holds numEvents (run readerStep (.new buffer numEvents answers) calls).1 q ∧
      eventsRead (run readerStep (.new buffer numEvents answers) calls).2 =
        eventsDelivered (run readerStep (.new buffer numEvents answers) calls).2 ++ q) ∧
    (∀ o ∈ (run readerStep (.new buffer numEvents answers) calls).2,
      o.Inside numEvents) ∧
    ∀ (sensor : IioSensorBase δ) (timestamp count : ℤ),
      sensor.mInputReader = (run readerStep (.new buffer numEvents answers) calls).1 →
      ∃ ret stored sensor',
        Returns (sensor.readEvents handleData timestamp count) (ret, stored, sensor') ∧
        (ret = if count < 1 then -einval else (stored.length : ℤ)) ∧
        stored.length ≤ count.toNat ∧
        (stored.length < count → sensor.mHasPendingEvent = false →
          Holds numEvents sensor'.mInputReader []) ∧
        ∃ calls', StepsMeet readerStep NextAfterRead sensor.mInputReader calls' ∧
          (run readerStep sensor.mInputReader calls').1 = sensor'.mInputReader := by
  obtain ⟨q, hholds, hkept, hinside⟩ :=
    readerRun_holds (holds_new buffer numEvents answers) hcalls
  rw [List.nil_append] at hkept
  refine ⟨⟨q, hholds, hkept⟩, hinside, fun sensor timestamp count hsensor => ?_⟩
  rw [← hsensor] at hholds
  unfold IioSensorBase.readEvents
  by_cases hcount : count < 1
  · simp only [if_pos hcount]
    exact ⟨_, _, _, returns_some.mpr rfl, rfl, Nat.zero_le _, fun h => by
      simp only [List.length_nil] at h
      omega, [], trivial, rfl⟩
  simp only [if_neg hcount]
  cases hpending : sensor.mHasPendingEvent with
  | true =>
      simp only [if_true]
      by_cases henabled : sensor.mEnabled
      · simp only [if_pos henabled]
        exact ⟨_, _, _, returns_some.mpr rfl, rfl, by simp; omega, nofun, [], trivial, rfl⟩
      · simp only [if_neg henabled]
        exact ⟨_, _, _, returns_some.mpr rfl, rfl, Nat.zero_le _, nofun, [], trivial, rfl⟩
  | false =>
      simp only [Bool.false_eq_true, if_false]
      obtain ⟨reading, hreturns, hgoes, hnone⟩ := roundLoop_ends_of_measure
        (fun reading : EventReading δ => reading.sensor.mInputReader.ahead numEvents)
        (fun reading reading' h hround => readEventsRound_end handleData h hround)
        (fun reading reading' h hround => readEventsRound_next handleData h hround)
        (show GoesOn numEvents sensor.mInputReader count ⟨sensor, count, []⟩ from
          ⟨⟨q, hholds⟩, ⟨[], trivial, rfl⟩, zero_add count,
            show 0 ≤ count from by omega⟩)
      obtain ⟨-, hreached, hroom, hnonneg⟩ := hgoes
      refine ⟨_, _, _, returns_map.mpr ⟨reading, hreturns, rfl⟩, rfl, by omega, fun h _ => ?_,
        hreached⟩
      exact hnone (by omega)

end

/-- Three events read into four cells, one of them delivered. -/
theorem inputReader_delivers_first :
    ∃ q, Holds 4 (run readerStep
        (.new (fun _ => ⟨0, 0⟩) 4 [.ok [⟨1, 10⟩, ⟨2, 20⟩, ⟨3, 30⟩]])
        [.readEvent, .next, .readEvent]).1 q ∧
      [⟨1, 10⟩, ⟨2, 20⟩, ⟨3, 30⟩] = [⟨1, 10⟩] ++ q :=
  (inputReader_delivers (fun value _ => value) 4 (fun _ => ⟨0, 0⟩)
    [.ok [⟨1, 10⟩, ⟨2, 20⟩, ⟨3, 30⟩]] [.readEvent, .next, .readEvent]
    ⟨nofun, fun _ => rfl, nofun, trivial⟩).1

end TateFirmware.Sensors
