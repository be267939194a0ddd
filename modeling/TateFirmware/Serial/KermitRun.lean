import TateFirmware.Serial.Kermit

/-!
# What a Kermit download delivers

The packets that a receiver acknowledges, each of them once however often it
was sent, decode to a list of bytes.  The memory `k_recv` fills holds exactly
these bytes as long as nothing is undone that was acknowledged, and nothing is
taken for new that is a repetition.
-/

namespace TateFirmware.Serial

open LibGeneric Support

/-! ## Decoding the acknowledged packets -/

/-- A decoder of data fields and what it has put out. -/
structure Decoded where
  quote : UInt8
  escape : Bool
  out : List UInt8

/-- One character of a data field. -/
def Decoded.char (x : Decoded) (c : UInt8) : Decoded :=
  if x.escape then { x with escape := false, out := x.out ++ [ktrans c] }
  else if c = x.quote then { x with escape := true }
  else { x with out := x.out ++ [c] }

/-- The quote character a send-initiate packet asks for. -/
def quoteOf (data : List UInt8) : UInt8 :=
  if 6 ≤ data.length then data.getD 5 0 else kEscape

/-- One packet. -/
def Decoded.packet (x : Decoded) (p : KPacket) : Decoded :=
  if p.type = dataType then p.data.foldl Decoded.char x
  else if p.type = sendType then { x with quote := quoteOf p.data }
  else x

/-- Packets, from the start of a download on. -/
def decode (packets : List KPacket) : Decoded :=
  packets.foldl Decoded.packet ⟨kEscape, false, []⟩

/-- The acknowledged packets behind one more pass; a packet with the number of
the last one is its repetition. -/
def accept (packets : List KPacket) : KEvent → List KPacket
  | .acked p =>
      if packets.getLast?.map KPacket.n = some p.n then packets
      else packets ++ [p]
  | .refused _ => packets

/-- The packets acknowledged in the course of some passes, each one once. -/
def accepted (events : List KEvent) : List KPacket := events.foldl accept []

/-! ## Memory and the decoder -/

/-- Memory and a position in it hold what a decoder has put out. -/
structure Represents (mem : Memory UInt8) (d : KData) (x : Decoded) : Prop where
  escape : d.escape = x.escape
  addr : d.addr = x.out.length
  out : Memory.Holds mem 0 x.out

theorem Represents.congr {mem mem' : Memory UInt8} {d : KData} {x : Decoded}
    (h : Represents mem d x) (hsame : ∀ k < d.addr, mem' k = mem k) :
    Represents mem' d x := by
  refine ⟨h.escape, h.addr, ?_⟩
  apply h.out.congr
  intro k _ hk
  rw [Nat.zero_add] at hk
  exact hsame k (by rw [h.addr]; exact hk)

theorem Represents.delivered {st : KState} {x : Decoded}
    (h : Represents st.mem st.data x) : st.delivered = x.out := by
  rw [KState.delivered, h.addr]
  exact h.out.read_eq

theorem Represents.osDataChar {st : KState} {x : Decoded} (c : UInt8)
    (h : Represents st.mem st.data x) :
    Memory.Holds (osDataChar c st).mem 0 (x.out ++ [c]) := by
  apply Memory.Holds.append
  · apply h.out.congr
    intro k _ hk
    rw [Nat.zero_add, ← h.addr] at hk
    exact Memory.store_of_ne c (Nat.ne_of_lt hk)
  · rw [Nat.zero_add, ← h.addr, Memory.holds_singleton]
    exact Memory.store_same _ _ _

/-- What `k_data_char` does to the state, seen as a step of the decoder. -/
theorem kDataChar_represents {st : KState} {x : Decoded} (c : UInt8)
    (h : Represents st.mem st.data x) (hquote : st.hisQuote = x.quote) :
    Represents (kDataChar c st).mem (kDataChar c st).data (x.char c) := by
  unfold kDataChar Decoded.char
  rw [h.escape, hquote]
  by_cases hescape : x.escape = true
  · rw [if_pos hescape, if_pos hescape]
    refine ⟨rfl, ?_, h.osDataChar (ktrans c)⟩
    simp [osDataChar, h.addr]
  · rw [if_neg hescape, if_neg hescape]
    by_cases hc : c = x.quote
    · rw [if_pos hc, if_pos hc]
      exact ⟨rfl, h.addr, h.out⟩
    · rw [if_neg hc, if_neg hc]
      refine ⟨h.escape, ?_, h.osDataChar c⟩
      simp [osDataChar, h.addr]

/-- What a data character leaves alone. -/
structure SameHeader (st st' : KState) : Prop where
  dataSaved : st'.dataSaved = st.dataSaved
  kState : st'.kState = st.kState
  kStateSaved : st'.kStateSaved = st.kStateSaved
  n : st'.n = st.n
  lastN : st'.lastN = st.lastN
  hisQuote : st'.hisQuote = st.hisQuote
  addr : st.data.addr ≤ st'.data.addr
  mem : ∀ k < st.data.addr, st'.mem k = st.mem k

theorem SameHeader.refl (st : KState) : SameHeader st st :=
  ⟨rfl, rfl, rfl, rfl, rfl, rfl, le_refl _, fun _ _ => rfl⟩

theorem SameHeader.trans {st st' st'' : KState} (h : SameHeader st st')
    (h' : SameHeader st' st'') : SameHeader st st'' where
  dataSaved := h'.dataSaved.trans h.dataSaved
  kState := h'.kState.trans h.kState
  kStateSaved := h'.kStateSaved.trans h.kStateSaved
  n := h'.n.trans h.n
  lastN := h'.lastN.trans h.lastN
  hisQuote := h'.hisQuote.trans h.hisQuote
  addr := h.addr.trans h'.addr
  mem := fun k hk =>
    (h'.mem k (Nat.lt_of_lt_of_le hk h.addr)).trans (h.mem k hk)

theorem kDataChar_sameHeader (c : UInt8) (st : KState) :
    SameHeader st (kDataChar c st) := by
  unfold kDataChar
  split
  · refine ⟨rfl, rfl, rfl, rfl, rfl, rfl, Nat.le_succ _, ?_⟩
    intro k hk
    exact Memory.store_of_ne _ (Nat.ne_of_lt hk)
  · split
    · exact ⟨rfl, rfl, rfl, rfl, rfl, rfl, le_refl _, fun _ _ => rfl⟩
    · refine ⟨rfl, rfl, rfl, rfl, rfl, rfl, Nat.le_succ _, ?_⟩
      intro k hk
      exact Memory.store_of_ne _ (Nat.ne_of_lt hk)

theorem fieldChar_sameHeader (c : UInt8) (st : KState) :
    SameHeader st (fieldChar c st) := by
  unfold fieldChar
  dsimp only
  split
  · have h := kDataChar_sameHeader c { st with field := st.field ++ [c] }
    exact ⟨h.1, h.2, h.3, h.4, h.5, h.6, h.7, h.8⟩
  · split
    · exact ⟨rfl, rfl, rfl, rfl, rfl, rfl, le_refl _, fun _ _ => rfl⟩
    · exact ⟨rfl, rfl, rfl, rfl, rfl, rfl, le_refl _, fun _ _ => rfl⟩

/-! ## A whole data field -/

/-- Some characters of a data field. -/
def feed (data : List UInt8) (st : KState) : KState :=
  data.foldl (fun st c => fieldChar c st) st

theorem feed_cons (c : UInt8) (data : List UInt8) (st : KState) :
    feed (c :: data) st = feed data (fieldChar c st) := rfl

theorem feed_sameHeader (data : List UInt8) (st : KState) :
    SameHeader st (feed data st) := by
  induction data generalizing st with
  | nil => exact SameHeader.refl st
  | cons c data ih => exact (fieldChar_sameHeader c st).trans (ih _)

theorem fieldChar_field (c : UInt8) (st : KState) :
    (fieldChar c st).field = st.field ++ [c] := by
  unfold fieldChar kDataChar osDataChar
  dsimp only
  split
  · split
    · rfl
    · split <;> rfl
  · split <;> rfl

theorem decoded_quote (x : Decoded) (c : UInt8) : (x.char c).quote = x.quote := by
  unfold Decoded.char
  split
  · rfl
  · split <;> rfl

theorem decoded_quote_foldl (x : Decoded) (data : List UInt8) :
    (data.foldl Decoded.char x).quote = x.quote := by
  induction data generalizing x with
  | nil => rfl
  | cons c data ih => rw [List.foldl_cons, ih, decoded_quote]

/-- A data field of a data packet. -/
theorem feed_represents {data : List UInt8} {st : KState} {x : Decoded}
    (htype : st.kState = dataType) (h : Represents st.mem st.data x)
    (hquote : st.hisQuote = x.quote) :
    Represents (feed data st).mem (feed data st).data
      (data.foldl Decoded.char x) := by
  induction data generalizing st x with
  | nil => exact h
  | cons c data ih =>
      have hsame := fieldChar_sameHeader c st
      have hstep : Represents (fieldChar c st).mem (fieldChar c st).data
          (x.char c) := by
        unfold fieldChar
        dsimp only
        rw [if_pos htype]
        exact @kDataChar_represents { st with field := st.field ++ [c] } x c h
          hquote
      rw [feed_cons, List.foldl_cons]
      apply ih (hsame.kState.trans htype) hstep
      rw [hsame.hisQuote, hquote, decoded_quote]

/-- The data field of another packet is not decoded. -/
theorem feed_of_not_data {data : List UInt8} {st : KState}
    (htype : st.kState ≠ dataType) :
    (feed data st).mem = st.mem ∧ (feed data st).data = st.data := by
  induction data generalizing st with
  | nil => exact ⟨rfl, rfl⟩
  | cons c data ih =>
      have hsame := fieldChar_sameHeader c st
      have hstep : (fieldChar c st).mem = st.mem ∧
          (fieldChar c st).data = st.data := by
        unfold fieldChar
        dsimp only
        rw [if_neg htype]
        split <;> exact ⟨rfl, rfl⟩
      obtain ⟨hmem, hdata⟩ := ih
        (show (fieldChar c st).kState ≠ dataType by
          rw [hsame.kState]
          exact htype)
      rw [feed_cons, hmem, hdata]
      exact hstep

theorem fieldChar_of_send {c : UInt8} {st : KState}
    (htype : st.kState = sendType) :
    (fieldChar c st).sendParms = st.sendParms.store st.sendPtr c ∧
      (fieldChar c st).sendPtr =
        if st.sendPtr + 1 ≥ sendDataSize then st.sendPtr
        else st.sendPtr + 1 := by
  have hne : ¬ st.kState = dataType := by
    rw [htype]
    decide
  unfold fieldChar
  dsimp only
  rw [if_neg hne, if_pos htype]
  exact ⟨rfl, rfl⟩

/-- The data field of a send-initiate packet in its buffer. -/
theorem feed_of_send {data : List UInt8} {st : KState}
    (htype : st.kState = sendType) (hptr : st.sendPtr ≤ 19) :
    (feed data st).sendPtr = min (st.sendPtr + data.length) 19 ∧
      ∀ k < 19, (feed data st).sendParms k =
        if k < st.sendPtr then st.sendParms k
        else data.getD (k - st.sendPtr) (st.sendParms k) := by
  induction data generalizing st with
  | nil =>
      refine ⟨?_, ?_⟩
      · simp only [feed, List.foldl_nil, List.length_nil]
        omega
      · intro k _
        simp [feed]
  | cons c data ih =>
      obtain ⟨hparms, hnext⟩ := fieldChar_of_send (c := c) htype
      have hsize : sendDataSize = 20 := rfl
      have hptr' : (fieldChar c st).sendPtr = min (st.sendPtr + 1) 19 := by
        rw [hnext]
        split <;> omega
      obtain ⟨hend, hcells⟩ := ih
        ((fieldChar_sameHeader c st).kState.trans htype) (by omega)
      rw [feed_cons]
      refine ⟨?_, ?_⟩
      · rw [hend, hptr', List.length_cons]
        omega
      · intro k hk
        rw [hcells k hk, hptr', hparms]
        by_cases hlt : k < st.sendPtr
        · rw [if_pos (by omega), if_pos hlt, Memory.store_of_ne _ (by omega)]
        · by_cases heq : k = st.sendPtr
          · rw [if_pos (by omega), if_neg hlt, heq, Memory.store_same,
              Nat.sub_self]
            rfl
          · have hsub : k - st.sendPtr = (k - min (st.sendPtr + 1) 19) + 1 := by
              omega
            rw [if_neg (by omega), if_neg hlt, hsub, List.getD_cons_succ,
              Memory.store_of_ne _ heq]

/-- The quote character behind a send-initiate packet. -/
theorem handleSendPacket_hisQuote {data : List UInt8} {st : KState}
    (htype : st.kState = sendType) (hptr : st.sendPtr = 0) :
    (handleSendPacket (feed data st)).hisQuote = quoteOf data := by
  obtain ⟨hend, hcells⟩ := @feed_of_send data st htype
    (by omega)
  have hsize : sendDataSize = 20 := rfl
  have hfive := hcells 5 (by decide)
  rw [hptr, if_neg (by omega), Nat.sub_zero] at hfive
  rw [hptr, Nat.zero_add] at hend
  unfold handleSendPacket quoteOf
  dsimp only
  rw [hend, hfive]
  by_cases hlen : 6 ≤ data.length
  · rw [if_pos (by split <;> omega), if_pos hlen,
      List.getD_eq_getElem _ _ (by omega), List.getD_eq_getElem _ _ (by omega)]
  · rw [if_neg (by split <;> omega), if_neg hlen]

/-! ## What a pass does -/

/-- A packet is refused. -/
def RefusedAt (n : Option ℕ) (st st' : KState) (e : KEvent) : Prop :=
  st' = { st with kState := st.kStateSaved, data := st.dataSaved } ∧
    e = .refused n

theorem packetError_done {n : Option ℕ} {st st' : KState} {e : KEvent}
    {input rest : List UInt8} (h : packetError n st input = .done st' e rest) :
    RefusedAt n st st' e := by
  unfold packetError at h
  cases h
  exact ⟨rfl, rfl⟩

theorem getPrintable_done {n : Option ℕ} {st st' : KState} {e : KEvent}
    {input rest : List UInt8} {k : UInt8 → List UInt8 → KPass}
    (h : getPrintable n st input k = .done st' e rest) :
    RefusedAt n st st' e ∨ ∃ c input', k c input' = .done st' e rest := by
  unfold getPrintable at h
  split at h
  · cases h
  · split at h
    · exact Or.inl (packetError_done h)
    · exact Or.inr ⟨_, _, h⟩

theorem endOfPacket_done {st st' : KState} {sum : ℕ} {e : KEvent}
    {input rest : List UInt8} (h : endOfPacket st sum input = .done st' e rest) :
    RefusedAt (some st.n) st st' e ∨
      (st' = (if st.kState = sendType then handleSendPacket st else st) ∧
        e = .acked ⟨st.n, st.kState, st.field⟩) := by
  unfold endOfPacket at h
  rcases getPrintable_done h with hbad | ⟨c, input', h⟩
  · exact Or.inl hbad
  · split at h
    · exact Or.inl (packetError_done h)
    · split at h
      · cases h
      · split at h
        · exact Or.inl (packetError_done h)
        · split at h
          · rename_i htype
            cases h
            exact Or.inr ⟨(if_pos htype).symm, rfl⟩
          · rename_i htype
            cases h
            exact Or.inr ⟨(if_neg htype).symm, rfl⟩

/-- Behind the header of a packet some characters of its data field are fed to
the decoder; then it is acknowledged or refused. -/
theorem restOfPacket_done {st st' : KState} {sum len : ℕ} {e : KEvent}
    {input rest : List UInt8}
    (h : restOfPacket st sum len input = .done st' e rest) :
    ∃ data, RefusedAt (some st.n) (feed data st) st' e ∨
      (st' = (if st.kState = sendType then handleSendPacket (feed data st)
          else feed data st) ∧
        e = .acked ⟨st.n, st.kState, st.field ++ data⟩) := by
  induction len generalizing st sum input with
  | zero => exact ⟨[], by simpa [feed] using endOfPacket_done h⟩
  | succ len ih =>
      cases input with
      | nil => cases h
      | cons c input =>
          rw [restOfPacket] at h
          split at h
          · exact ⟨[], Or.inl (packetError_done h)⟩
          · have hsame := fieldChar_sameHeader c st
            obtain ⟨data, hcases⟩ := ih h
            rw [hsame.n, hsame.kState, fieldChar_field, List.append_assoc,
              List.singleton_append, ← feed_cons] at hcases
            exact ⟨c :: data, hcases⟩

theorem extendedLength_done {st st' : KState} {sum : ℕ} {e : KEvent}
    {input rest : List UInt8}
    (h : extendedLength st sum input = .done st' e rest) :
    ∃ data, RefusedAt (some st.n) (feed data st) st' e ∨
      (st' = (if st.kState = sendType then handleSendPacket (feed data st)
          else feed data st) ∧
        e = .acked ⟨st.n, st.kState, st.field ++ data⟩) := by
  unfold extendedLength at h
  rcases getPrintable_done h with hbad | ⟨hi, input, h⟩
  · exact ⟨[], Or.inl hbad⟩
  rcases getPrintable_done h with hbad | ⟨lo, input, h⟩
  · exact ⟨[], Or.inl hbad⟩
  rcases getPrintable_done h with hbad | ⟨c, input, h⟩
  · exact ⟨[], Or.inl hbad⟩
  split at h
  · exact ⟨[], Or.inl (packetError_done h)⟩
  · exact restOfPacket_done h

/-- What a pass has done to the state when it ends. -/
inductive PassEnd (st st' : KState) : KEvent → Prop where
  /-- An error in front of the sequence number: the state goes back to the
  checkpoint of the last packet. -/
  | early (hdata : st'.data = st.dataSaved)
      (hsaved : st'.dataSaved = st.dataSaved) (hlast : st'.lastN = st.lastN)
      (hquote : st'.hisQuote = st.hisQuote)
      (hmem : ∀ k < st.dataSaved.addr, st'.mem k = st.mem k) :
      PassEnd st st' (.refused none)
  /-- An error behind the sequence number. -/
  | late (n : ℕ) (hdata : st'.data = (checkpoint n st).dataSaved)
      (hsaved : st'.dataSaved = (checkpoint n st).dataSaved)
      (hlast : st'.lastN = some n) (hquote : st'.hisQuote = st.hisQuote)
      (hmem : ∀ k < (checkpoint n st).data.addr, st'.mem k = st.mem k) :
      PassEnd st st' (.refused (some n))
  /-- A good packet is decoded behind its checkpoint. -/
  | good (p : KPacket)
      (hdecode : ∀ x : Decoded,
        Represents st.mem (checkpoint p.n st).data x → st.hisQuote = x.quote →
          Represents st'.mem st'.data (x.packet p) ∧
            st'.hisQuote = (x.packet p).quote)
      (hsaved : st'.dataSaved = (checkpoint p.n st).dataSaved)
      (hlast : st'.lastN = some p.n)
      (hmem : ∀ k < (checkpoint p.n st).data.addr, st'.mem k = st.mem k) :
      PassEnd st st' (.acked p)

theorem checkpoint_lastN (n : ℕ) (st : KState) :
    (checkpoint n st).lastN = some n := by
  unfold checkpoint
  split
  · assumption
  · rfl

theorem checkpoint_same (n : ℕ) (st : KState) :
    (checkpoint n st).mem = st.mem ∧ (checkpoint n st).n = n ∧
      (checkpoint n st).hisQuote = st.hisQuote ∧
      (checkpoint n st).sendPtr = st.sendPtr ∧
      (checkpoint n st).field = st.field := by
  unfold checkpoint
  split <;> exact ⟨rfl, rfl, rfl, rfl, rfl⟩

theorem checkpoint_data (n : ℕ) (st : KState) :
    (checkpoint n st).data = (checkpoint n st).dataSaved := by
  unfold checkpoint
  split <;> rfl

/-- A packet whose number and type are read. -/
theorem passEnd_of_field {st s st' : KState} {n : ℕ} {type : UInt8}
    {data : List UInt8} {e : KEvent} (hptr : st.sendPtr = 0)
    (hfield : st.field = []) (hs : { checkpoint n st with kState := type } = s)
    (h : RefusedAt (some s.n) (feed data s) st' e ∨
      (st' = (if s.kState = sendType then handleSendPacket (feed data s)
          else feed data s) ∧
        e = .acked ⟨s.n, s.kState, s.field ++ data⟩)) :
    PassEnd st st' e := by
  obtain ⟨hmem, hn, hquote, hsendPtr, hkept⟩ := checkpoint_same n st
  have hlast := checkpoint_lastN n st
  have hdata := checkpoint_data n st
  have hsame := feed_sameHeader data s
  have hsQuote : s.hisQuote = st.hisQuote := by rw [← hs]; exact hquote
  have hsMem : s.mem = st.mem := by rw [← hs]; exact hmem
  have hsData : s.data = (checkpoint n st).data := by rw [← hs]
  have hsSaved : s.dataSaved = (checkpoint n st).dataSaved := by rw [← hs]
  have hsLast : s.lastN = some n := by rw [← hs]; exact hlast
  have hsType : s.kState = type := by rw [← hs]
  have hsN : s.n = n := by rw [← hs]; exact hn
  have hsField : s.field = [] := by rw [← hs]; exact hkept.trans hfield
  rw [hsN, hsType, hsField, List.nil_append] at h
  have hbelow : ∀ k < (checkpoint n st).data.addr,
      (feed data s).mem k = st.mem k := by
    intro k hk
    rw [hsame.mem k (by rw [hsData]; exact hk), hsMem]
  rcases h with ⟨rfl, rfl⟩ | ⟨hst', rfl⟩
  · exact .late n (hsame.dataSaved.trans hsSaved)
      (hsame.dataSaved.trans hsSaved) (hsame.lastN.trans hsLast)
      (hsame.hisQuote.trans hsQuote) hbelow
  · refine .good ⟨n, type, data⟩ ?_ ?_ ?_ ?_
    · intro x hx hxquote
      have hrep : Represents s.mem s.data x := by rwa [hsMem, hsData]
      by_cases hdataType : type = dataType
      · have hne : ¬ type = sendType := by
          rw [hdataType]
          decide
        rw [hst', if_neg hne, Decoded.packet, if_pos hdataType]
        refine ⟨feed_represents (hsType.trans hdataType) hrep
          (hsQuote.trans hxquote), ?_⟩
        rw [hsame.hisQuote, hsQuote, hxquote, decoded_quote_foldl]
      · obtain ⟨hfeedMem, hfeedData⟩ := @feed_of_not_data data s
          (show s.kState ≠ dataType by rw [hsType]; exact hdataType)
        by_cases hsend : type = sendType
        · rw [hst', if_pos hsend, Decoded.packet, if_neg hdataType, if_pos hsend]
          refine ⟨?_, handleSendPacket_hisQuote (hsType.trans hsend) (by
            rw [← hs]
            exact hsendPtr.trans hptr)⟩
          have hkept : Represents (feed data s).mem (feed data s).data x := by
            rwa [hfeedMem, hfeedData]
          exact ⟨hkept.escape, hkept.addr, hkept.out⟩
        · rw [hst', if_neg hsend, Decoded.packet, if_neg hdataType,
            if_neg hsend, hfeedMem, hfeedData]
          exact ⟨hrep, by rw [hsame.hisQuote, hsQuote, hxquote]⟩
    · rw [hst']
      split
      · exact hsame.dataSaved.trans hsSaved
      · exact hsame.dataSaved.trans hsSaved
    · rw [hst']
      split
      · exact hsame.lastN.trans hsLast
      · exact hsame.lastN.trans hsLast
    · rw [hst']
      split
      · exact hbelow
      · exact hbelow

theorem packetFromLength_done {st st' : KState} {e : KEvent}
    {input rest : List UInt8} (hptr : st.sendPtr = 0) (hfield : st.field = [])
    (h : packetFromLength st input = .done st' e rest) : PassEnd st st' e := by
  have hearly : RefusedAt none st st' e → PassEnd st st' e := by
    rintro ⟨rfl, rfl⟩
    exact .early rfl rfl rfl rfl fun _ _ => rfl
  unfold packetFromLength at h
  rcases getPrintable_done h with hbad | ⟨len, input, h⟩
  · exact hearly hbad
  rcases getPrintable_done h with hbad | ⟨seq, input, h⟩
  · exact hearly hbad
  dsimp only at h
  obtain ⟨hmem, hn, hquote, -⟩ := checkpoint_same (untochar seq) st
  rcases getPrintable_done h with ⟨rfl, rfl⟩ | ⟨type, input, h⟩
  · rw [hn]
    refine .late _ rfl rfl (checkpoint_lastN _ _) hquote ?_
    intro k _
    rw [← hmem]
  · split at h
    · obtain ⟨data, hcases⟩ := extendedLength_done h
      exact passEnd_of_field hptr hfield rfl hcases
    · obtain ⟨data, hcases⟩ := restOfPacket_done h
      exact passEnd_of_field hptr hfield rfl hcases

theorem checkpoint_fresh (n : ℕ) (st : KState) :
    (checkpoint n { st with sendPtr := 0, field := [] }).data =
        (checkpoint n st).data ∧
      (checkpoint n { st with sendPtr := 0, field := [] }).dataSaved =
        (checkpoint n st).dataSaved := by
  unfold checkpoint
  dsimp only
  split <;> exact ⟨rfl, rfl⟩

/-- Every pass ends in one of the three ways. -/
theorem kPass_done {st st' : KState} {e : KEvent} {input rest : List UInt8}
    (h : kPass st input = .done st' e rest) : PassEnd st st' e := by
  induction input with
  | nil => cases h
  | cons c input ih =>
      rw [kPass] at h
      split at h
      · have hend := packetFromLength_done rfl rfl h
        cases hend with
        | early hdata hsaved hlast hquote hmem =>
            exact .early hdata hsaved hlast hquote hmem
        | late n hdata hsaved hlast hquote hmem =>
            obtain ⟨hfreshData, hfreshSaved⟩ := checkpoint_fresh n st
            rw [hfreshSaved] at hdata hsaved
            rw [hfreshData] at hmem
            exact .late n hdata hsaved hlast hquote hmem
        | good p hdecode hsaved hlast hmem =>
            obtain ⟨hfreshData, hfreshSaved⟩ := checkpoint_fresh p.n st
            rw [hfreshSaved] at hsaved
            rw [hfreshData] at hmem
            simp only [hfreshData] at hdecode
            exact .good p hdecode hsaved hlast hmem
      · split at h
        · cases h
        · exact ih h

/-! ## Runs -/

/-- A pass does not touch the defects of the receiver: where it goes back to
the checkpoint, nothing was delivered since; and where the last packet comes
again, it is the same packet, and the checkpoint is still the one in front of
it unless it delivers nothing. -/
def Sound (packets : List KPacket) (st : KState) : KEvent → Prop
  | .refused none => st.dataSaved = st.data
  | .refused (some n) => st.lastN = some n → st.dataSaved = st.data
  | .acked p => ∀ q, packets.getLast? = some q → q.n = p.n →
      p = q ∧ (p.type = dataType → p.data ≠ [] →
        st.lastN = some p.n ∧ st.dataSaved ≠ st.data)

/-- All of at most `k` passes are sound, where `packets` were acknowledged
before them. -/
def PassesSound : ℕ → List KPacket → KState → List UInt8 → Prop
  | 0, _, _, _ => True
  | k + 1, packets, st, input =>
      match kPass st input with
      | .done st' e input =>
          Sound packets st e ∧ PassesSound k (accept packets e) st' input
      | .waiting _ => True
      | .interrupted _ => True

instance (packets : List KPacket) (st : KState) (e : KEvent) :
    Decidable (Sound packets st e) :=
  match e with
  | .refused none => inferInstanceAs (Decidable (st.dataSaved = st.data))
  | .refused (some n) =>
      inferInstanceAs
        (Decidable (st.lastN = some n → st.dataSaved = st.data))
  | .acked p =>
      inferInstanceAs (Decidable (∀ q ∈ packets.getLast?, q.n = p.n →
        p = q ∧ (p.type = dataType → p.data ≠ [] →
          st.lastN = some p.n ∧ st.dataSaved ≠ st.data)))

instance decidablePassesSound : (k : ℕ) → (packets : List KPacket) →
    (st : KState) → (input : List UInt8) →
    Decidable (PassesSound k packets st input)
  | 0, _, _, _ => isTrue trivial
  | k + 1, packets, st, input => by
      unfold PassesSound
      exact match kPass st input with
      | .done st' e input =>
          have := decidablePassesSound k (accept packets e) st' input
          inferInstanceAs (Decidable (Sound packets st e ∧
            PassesSound k (accept packets e) st' input))
      | .waiting _ => isTrue trivial
      | .interrupted _ => isTrue trivial

/-- Between two passes memory holds what the acknowledged packets decode to,
and the checkpoint is in front of the last of them or behind all of them. -/
structure Delivered (packets : List KPacket) (st : KState) : Prop where
  data : Represents st.mem st.data (decode packets)
  quote : st.hisQuote = (decode packets).quote
  saved : Represents st.mem st.dataSaved (decode packets) ∨
    ∃ front q, packets = front ++ [q] ∧ st.lastN = some q.n ∧
      Represents st.mem st.dataSaved (decode front)

theorem decode_append (front : List KPacket) (q : KPacket) :
    decode (front ++ [q]) = (decode front).packet q := by
  rw [decode, List.foldl_append]
  rfl

theorem delivered_init (mem sendParms : Memory UInt8) :
    Delivered [] (KState.init mem sendParms) := by
  have hrep : Represents mem ⟨false, 0⟩ (decode []) :=
    ⟨rfl, rfl, Memory.holds_nil mem 0⟩
  exact ⟨hrep, rfl, Or.inl hrep⟩

theorem Represents.addr_eq {mem : Memory UInt8} {d d' : KData} {x : Decoded}
    (h : Represents mem d x) (h' : Represents mem d' x) : d = d' := by
  cases d
  cases d'
  simp only [KData.mk.injEq]
  exact ⟨h.escape.trans h'.escape.symm, h.addr.trans h'.addr.symm⟩

/-- A packet that comes again finds its own quote character. -/
theorem packet_requote (x : Decoded) (q : KPacket) :
    ({ x with quote := (x.packet q).quote } : Decoded).packet q =
      x.packet q := by
  unfold Decoded.packet
  by_cases hdata : q.type = dataType
  · simp only [if_pos hdata, decoded_quote_foldl]
  · by_cases hsend : q.type = sendType
    · simp only [if_neg hdata, if_pos hsend]
    · simp only [if_neg hdata, if_neg hsend]

/-- A packet that delivers nothing may come again. -/
theorem packet_again (x : Decoded) {q : KPacket}
    (hnothing : q.type = dataType → q.data = []) :
    (x.packet q).packet q = x.packet q := by
  unfold Decoded.packet
  by_cases hdata : q.type = dataType
  · simp only [if_pos hdata, hnothing hdata, List.foldl_nil]
  · by_cases hsend : q.type = sendType
    · simp only [if_neg hdata, if_pos hsend]
    · simp only [if_neg hdata, if_neg hsend]

/-- Where the checkpoint of a packet is, and what it holds: for a new packet
all that was acknowledged before it, for a repetition of one that delivers
something all that was acknowledged before its first copy. -/
theorem Delivered.checkpoint_new {packets : List KPacket} {st : KState}
    {p : KPacket} (h : Delivered packets st)
    (hnew : packets.getLast?.map KPacket.n ≠ some p.n) :
    Represents st.mem (checkpoint p.n st).data (decode packets) := by
  unfold checkpoint
  split
  · rename_i hlast
    rcases h.saved with hsaved | ⟨front, q, rfl, hq, -⟩
    · exact hsaved
    · refine absurd ?_ hnew
      rw [List.getLast?_concat, Option.map_some, ← hq]
      exact hlast
  · exact h.data

theorem Delivered.checkpoint_again {front : List KPacket} {st : KState}
    {p : KPacket} (h : Delivered (front ++ [p]) st)
    (hsound : p.type = dataType → p.data ≠ [] →
      st.lastN = some p.n ∧ st.dataSaved ≠ st.data) :
    Represents st.mem (checkpoint p.n st).data (decode front) ∨
      (Represents st.mem (checkpoint p.n st).data (decode (front ++ [p])) ∧
        (p.type = dataType → p.data = [])) := by
  rcases h.saved with hsaved | ⟨front', q, hpackets, -, hsaved⟩
  · refine Or.inr ⟨?_, ?_⟩
    · unfold checkpoint
      split
      · exact hsaved
      · exact h.data
    · intro htype
      by_contra hne
      exact (hsound htype hne).2 (hsaved.addr_eq h.data)
  · obtain ⟨rfl, -⟩ := List.append_inj' hpackets rfl
    by_cases hlast : st.lastN = some p.n
    · left
      unfold checkpoint
      rw [if_pos hlast]
      exact hsaved
    · right
      refine ⟨?_, ?_⟩
      · unfold checkpoint
        rw [if_neg hlast]
        exact h.data
      · intro htype
        by_contra hne
        exact hlast (hsound htype hne).1

/-- A sound pass keeps the memory in step with the acknowledged packets. -/
theorem Delivered.step {packets : List KPacket} {st st' : KState} {e : KEvent}
    (h : Delivered packets st) (hend : PassEnd st st' e)
    (hsound : Sound packets st e) : Delivered (accept packets e) st' := by
  cases hend with
  | early hdata hsaved hlast hquote hmem =>
      have hsame : st.dataSaved = st.data := hsound
      rw [hsame] at hmem hdata hsaved
      have hrep := h.data.congr hmem
      refine ⟨?_, hquote.trans h.quote, Or.inl ?_⟩
      · rw [hdata]
        exact hrep
      · rw [hsaved]
        exact hrep
  | late n hdata hsaved hlast hquote hmem =>
      have hcheck : (checkpoint n st).dataSaved = st.data := by
        unfold checkpoint
        split
        · rename_i hn
          exact hsound hn
        · rfl
      rw [checkpoint_data, hcheck] at hmem
      rw [hcheck] at hdata hsaved
      have hrep := h.data.congr hmem
      refine ⟨?_, hquote.trans h.quote, Or.inl ?_⟩
      · rw [hdata]
        exact hrep
      · rw [hsaved]
        exact hrep
  | good p hdecode hsaved hlast hmem =>
      have hkept : ∀ x : Decoded,
          Represents st.mem (checkpoint p.n st).data x →
            Represents st'.mem st'.dataSaved x := by
        intro x hx
        rw [hsaved, ← checkpoint_data]
        exact hx.congr hmem
      by_cases hnew : packets.getLast?.map KPacket.n = some p.n
      · obtain ⟨q, hq, hqn⟩ := Option.map_eq_some_iff.1 hnew
        obtain ⟨rfl, hrecognized⟩ := hsound q hq hqn
        obtain ⟨front, rfl⟩ := List.getLast?_eq_some_iff.1 hq
        rw [accept, if_pos hnew]
        rcases h.checkpoint_again hrecognized with hx | ⟨hx, hnothing⟩
        · -- the first copy is undone, but for the quote character
          have hquote := h.quote
          rw [decode_append] at hquote
          obtain ⟨hrep, hq'⟩ := hdecode
            { decode front with quote := ((decode front).packet p).quote }
            ⟨hx.escape, hx.addr, hx.out⟩ hquote
          rw [packet_requote, ← decode_append] at hrep hq'
          exact ⟨hrep, hq', Or.inr ⟨front, p, rfl, hlast, hkept _ hx⟩⟩
        · obtain ⟨hrep, hq'⟩ := hdecode _ hx h.quote
          rw [decode_append, packet_again _ hnothing, ← decode_append]
            at hrep hq'
          exact ⟨hrep, hq', Or.inl (hkept _ hx)⟩
      · have hx := h.checkpoint_new hnew
        obtain ⟨hrep, hq⟩ := hdecode _ hx h.quote
        rw [← decode_append] at hrep hq
        rw [accept, if_neg hnew]
        exact ⟨hrep, hq, Or.inr ⟨packets, p, rfl, hlast, hkept _ hx⟩⟩

/-- Passes that are sound deliver what the acknowledged packets decode to. -/
theorem Delivered.run {k : ℕ} {packets : List KPacket} {st : KState}
    {input : List UInt8} (h : Delivered packets st)
    (hsound : PassesSound k packets st input) :
    Delivered ((kRecv k st input).2.1.foldl accept packets)
      (kRecv k st input).1 := by
  induction k generalizing packets st input with
  | zero => exact h
  | succ k ih =>
      rw [PassesSound] at hsound
      rw [kRecv]
      cases hpass : kPass st input with
      | waiting _ => exact h
      | interrupted _ => exact h
      | done st' e rest =>
          rw [hpass] at hsound
          have hstep := h.step (kPass_done hpass) hsound.1
          dsimp only
          by_cases hbreak : e.isBreak = true
          · rw [if_pos hbreak]
            exact hstep
          · rw [if_neg hbreak]
            exact ih hstep hsound.2

/-- The bytes `k_recv` has delivered are those of the acknowledged packets,
each of them decoded once, in every run whose passes are sound. -/
theorem kRecv_delivered (k : ℕ) (mem sendParms : Memory UInt8)
    (input : List UInt8)
    (hsound : PassesSound k [] (KState.init mem sendParms) input) :
    (kRecv k (KState.init mem sendParms) input).1.delivered =
      (decode (accepted
        (kRecv k (KState.init mem sendParms) input).2.1)).out :=
  ((delivered_init mem sendParms).run hsound).data.delivered

/-- The characters of a packet with a check of one character. -/
def KPacket.chars (p : KPacket) : List UInt8 :=
  let head := [tochar (p.data.length + 3), tochar p.n, p.type] ++ p.data
  startChar :: head ++ [checkChar ((head.map UInt8.toNat).sum), endChar]

/-- A packet whose check character was damaged. -/
def KPacket.damaged (p : KPacket) : List UInt8 :=
  p.chars.dropLast.dropLast ++ [0x7e, endChar]

/-- Packets number 0 and 1, the first of them twice and the second one damaged
and sent again. -/
def noisyChars : List UInt8 :=
  KPacket.chars ⟨0, dataType, [ch 'A']⟩ ++
    KPacket.chars ⟨0, dataType, [ch 'A']⟩ ++
    KPacket.damaged ⟨1, dataType, [ch 'B']⟩ ++
    KPacket.chars ⟨1, dataType, [ch 'B']⟩

theorem kRecv_delivered_noisyChars :
    (kRecv 4 (KState.init (fun _ => 0) fun _ => 0) noisyChars).1.delivered =
      (decode (accepted (kRecv 4 (KState.init (fun _ => 0) fun _ => 0)
        noisyChars).2.1)).out ∧
      PassesSound 4 [] (KState.init (fun _ => 0) fun _ => 0) noisyChars ∧
      (kRecv 4 (KState.init (fun _ => 0) fun _ => 0) noisyChars).1.delivered =
        [ch 'A', ch 'B'] :=
  ⟨kRecv_delivered 4 (fun _ => 0) (fun _ => 0) noisyChars
    (by decide), by decide, by decide⟩

/-- Packet number 1 is damaged in its length and sent again; packet number 0,
which was acknowledged long before, is lost. -/
theorem kRecv_not_delivered_damagedLength :
    ∃ input : List UInt8,
      input = KPacket.chars ⟨0, dataType, [ch 'A']⟩ ++ [startChar, 0] ++
        KPacket.chars ⟨1, dataType, [ch 'B']⟩ ∧
      (kRecv 3 (KState.init (fun _ => 0) fun _ => 0) input).2.1 =
        [.acked ⟨0, dataType, [ch 'A']⟩, .refused none,
          .acked ⟨1, dataType, [ch 'B']⟩] ∧
      (decode (accepted (kRecv 3 (KState.init (fun _ => 0) fun _ => 0)
        input).2.1)).out = [ch 'A', ch 'B'] ∧
      (kRecv 3 (KState.init (fun _ => 0) fun _ => 0) input).1.delivered =
        [ch 'B'] :=
  ⟨_, rfl, by decide, by decide, by decide⟩

end TateFirmware.Serial
