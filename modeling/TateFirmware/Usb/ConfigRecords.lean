import Mathlib.Data.List.Nodup
import TateFirmware.Usb.ParseConfig

/-!
# What is recorded of a configuration

A configuration is made of interfaces, an interface of a default setting and of
alternate ones, and a setting of the descriptors behind its own.  From a buffer
that holds a configuration `usb_parse_config` records the endpoints of all the
settings of an interface behind each other, those of the default one first.
-/

namespace TateFirmware.Usb

open Support Support.Memory

/-! ## Configurations -/

/-- A descriptor: its type, and what follows its length and its type. -/
structure Descriptor where
  type : UInt8
  body : List UInt8
  short : body.length + 2 < 256

/-- The bytes of a descriptor. -/
def Descriptor.bytes (d : Descriptor) : List UInt8 :=
  UInt8.ofNat (d.body.length + 2) :: d.type :: d.body

/-- The first byte behind the type: `bInterfaceNumber` of an interface,
`bEndpointAddress` of an endpoint. -/
def Descriptor.first (d : Descriptor) : UInt8 := d.body.headD 0

/-- The bytes of descriptors behind each other. -/
def encode (ds : List Descriptor) : List UInt8 := ds.flatMap Descriptor.bytes

/-- The endpoints among descriptors. -/
def endpointsOf (ds : List Descriptor) : List Descriptor := ds.filter (·.type = 5)

/-- The lengths interfaces and endpoints have. -/
def Descriptor.Sized (d : Descriptor) : Prop :=
  (d.type = 4 → d.body.length = 7) ∧
    (d.type = 5 → 5 ≤ d.body.length ∧ d.body.length ≤ 7)

/-- A setting of an interface: the last four bytes of its descriptor, and the
descriptors behind it. -/
structure Setting where
  number : UInt8
  alternate : UInt8
  info : List UInt8
  items : List Descriptor
  info_length : info.length = 4
  noInterface : ∀ d ∈ items, d.type ≠ 4
  sized : ∀ d ∈ items, d.Sized
  distinct : ((endpointsOf items).map Descriptor.first).Nodup

namespace Setting

/-- The endpoints of a setting. -/
def endpoints (s : Setting) : List Descriptor := endpointsOf s.items

/-- The descriptor of a setting. -/
def desc (s : Setting) : Descriptor where
  type := 4
  body := s.number :: s.alternate :: UInt8.ofNat s.endpoints.length :: s.info
  short := by simp [s.info_length]

@[simp] theorem desc_type (s : Setting) : s.desc.type = 4 := rfl

@[simp] theorem desc_first (s : Setting) : s.desc.first = s.number := rfl

/-- The descriptors of a setting. -/
def descriptors (s : Setting) : List Descriptor := s.desc :: s.items

end Setting

/-- An interface: its default setting and the alternate ones. -/
structure Interface where
  default : Setting
  alternates : List Setting
  default_alternate : default.alternate = 0
  alternate_ne : ∀ s ∈ alternates, s.alternate ≠ 0
  number_eq : ∀ s ∈ alternates, s.number = default.number

namespace Interface

/-- The descriptors of an interface. -/
def descriptors (i : Interface) : List Descriptor :=
  i.default.descriptors ++ i.alternates.flatMap Setting.descriptors

/-- The endpoints of all settings. -/
def endpoints (i : Interface) : List Descriptor :=
  i.default.endpoints ++ i.alternates.flatMap Setting.endpoints

/-- No alternate setting has an endpoint of the default one. -/
def NoRepeat (i : Interface) : Prop :=
  ∀ e ∈ i.default.endpoints, ∀ s ∈ i.alternates, ∀ e' ∈ s.endpoints,
    e'.first ≠ e.first

end Interface

/-- A configuration: the last four bytes of its descriptor, the descriptors in
front of the first interface, and the interfaces. -/
structure Configuration where
  info : List UInt8
  extras : List Descriptor
  interfaces : List Interface
  info_length : info.length = 4
  extras_type : ∀ d ∈ extras, d.type ≠ 4 ∧ d.type ≠ 5
  distinct : (interfaces.map fun i => i.default.number).Nodup

namespace Configuration

/-- The descriptors behind the one of the configuration. -/
def descriptors (c : Configuration) : List Descriptor :=
  c.extras ++ c.interfaces.flatMap Interface.descriptors

/-- `wTotalLength`. -/
def total (c : Configuration) : ℕ := 9 + (encode c.descriptors).length

/-- The bytes of a configuration. -/
def bytes (c : Configuration) : List UInt8 :=
  [9, 2, UInt8.ofNat c.total, UInt8.ofNat (c.total / 256),
    UInt8.ofNat c.interfaces.length] ++ c.info ++ encode c.descriptors

end Configuration

/-- The buffer holds the configuration. -/
def HoldsConfig (buffer : Memory UInt8) (c : Configuration) : Prop :=
  c.total ≤ usbBufsiz ∧ buffer.Holds 0 c.bytes

/-! ## Records -/

/-- What is recorded of an interface: its number and its endpoints. -/
structure Recorded where
  number : UInt8
  endpoints : List Descriptor

/-- An interface is recorded at a place of `if_desc`. -/
structure RecordAt (dev : Memory UInt8) (i : ℕ) (r : Recorded) : Prop where
  number : dev (ifDesc (some i) + 2) = r.number
  count : (dev (ifDesc (some i) + noOfEp)).toNat = r.endpoints.length
  bytes : ∀ j (h : j < r.endpoints.length),
    dev.Holds (ifDesc (some i) + epDesc j) r.endpoints[j].bytes

/-- The interfaces that are recorded. -/
structure Records (dev : Memory UInt8) (rs : List Recorded) : Prop where
  count : (dev noOfIf).toNat = rs.length
  at_index : ∀ i (h : i < rs.length), RecordAt dev i rs[i]

/-- What a descriptor adds to the records. -/
def record (rs : List Recorded) (d : Descriptor) : List Recorded :=
  if d.type = 4 then
    if rs.getLast?.map Recorded.number = some d.first then rs
    else rs ++ [⟨d.first, []⟩]
  else if d.type = 5 then
    match rs.getLast? with
    | none => rs
    | some r => rs.dropLast ++ [⟨r.number, r.endpoints ++ [d]⟩]
  else rs

/-- The endpoint is recorded under the interface, at one place and at no other. -/
def RecordedOnce (dev : Memory UInt8) (number : UInt8) (e : Descriptor) : Prop :=
  ∃ i j, dev.Holds (ifDesc (some i) + epDesc j) e.bytes ∧
    ∀ i' j', (i' < (dev noOfIf).toNat ∧
        j' < (dev (ifDesc (some i') + noOfEp)).toNat ∧
        dev (ifDesc (some i') + 2) = number ∧
        dev (ifDesc (some i') + epDesc j' + 2) = e.first) ↔ i' = i ∧ j' = j

/-- Every endpoint of a default setting is recorded once, under its interface. -/
def RecordsDefaults (dev : Memory UInt8) (c : Configuration) : Prop :=
  ∀ i ∈ c.interfaces, ∀ e ∈ i.default.endpoints,
    RecordedOnce dev i.default.number e

/-! ## Descriptors in the buffer -/

variable {buffer : Memory UInt8} {s s' : ConfigParse} {d : Descriptor}
  {ds : List Descriptor} {rs : List Recorded}

@[simp] theorem Descriptor.bytes_length (d : Descriptor) :
    d.bytes.length = d.body.length + 2 := rfl

theorem encode_cons (d : Descriptor) (ds : List Descriptor) :
    encode (d :: ds) = d.bytes ++ encode ds := List.flatMap_cons

/-- The loop is at a descriptor. -/
structure AtDescriptor (buffer : Memory UInt8) (s : ConfigParse) (d : Descriptor) :
    Prop where
  len : s.len buffer = d.bytes.length
  type : buffer (s.index + 1) = d.type
  bytes : buffer.read s.index d.bytes.length = d.bytes
  first : d.body ≠ [] → buffer (s.index + 2) = d.first

theorem atDescriptor (h : buffer.Holds s.index (encode (d :: ds))) :
    AtDescriptor buffer s d ∧ buffer.Holds (s.index + d.bytes.length) (encode ds) := by
  rw [encode_cons, holds_append] at h
  obtain ⟨hd, hds⟩ := h
  have hread := hd.read_eq
  have hshort := d.short
  obtain ⟨hlen, htype, hbody⟩ : buffer s.index = UInt8.ofNat (d.body.length + 2) ∧
      buffer (s.index + 1) = d.type ∧ buffer.Holds (s.index + 1 + 1) d.body := by
    rw [Descriptor.bytes, holds_cons, holds_cons] at hd
    exact hd
  refine ⟨⟨?_, htype, hread, fun hne => ?_⟩, hds⟩
  · rw [ConfigParse.len, hlen, UInt8.toNat_ofNat', Nat.mod_eq_of_lt hshort,
      Descriptor.bytes_length]
  · obtain ⟨b, rest, hbody'⟩ := List.exists_cons_of_ne_nil hne
    rw [hbody', holds_cons] at hbody
    rw [Descriptor.first, hbody']
    exact hbody.1

/-! ## One descriptor -/

/-- The records fit into their places. -/
def Small (r : Recorded) : Prop :=
  r.endpoints.length ≤ usbMaxendpoints ∧
    ∀ e ∈ r.endpoints, e.bytes.length ≤ endpointSize

/-- An interface is recorded as long as its place is left alone, the number of
alternate settings apart. -/
theorem RecordAt.congr {dev dev' : Memory UInt8} {i : ℕ} {r : Recorded}
    (h : RecordAt dev i r) (hsmall : Small r)
    (hsame : ∀ k, ifDesc (some i) ≤ k → k < ifDesc (some i) + interfaceSize →
      k ≠ ifDesc (some i) + numAltsetting → dev' k = dev k) : RecordAt dev' i r := by
  have hsize : interfaceSize = 156 := rfl
  have halt : numAltsetting = 10 := rfl
  refine ⟨?_, ?_, fun j hj => ?_⟩
  · rw [hsame _ (by omega) (by omega) (by omega)]
    exact h.number
  · rw [hsame _ (by omega) (by simp only [noOfEp]; omega) (by simp only [noOfEp]; omega)]
    exact h.count
  · have hslot := epDesc_le (Nat.lt_of_lt_of_le hj hsmall.1)
    have hbytes := hsmall.2 _ (List.getElem_mem hj)
    refine (h.bytes j hj).congr fun k hge hlt => hsame k (by omega) (by omega) ?_
    simp only [epDesc] at hge
    omega

/-- What the loop has recorded. -/
structure Tracks (s : ConfigParse) (rs : List Recorded) : Prop where
  records : Records s.dev rs
  small : ∀ r ∈ rs, Small r
  ifno : s.ifno = if rs = [] then none else some (rs.length - 1)
  curr : s.currIfNum = rs.getLast?.map Recorded.number

theorem Tracks.fresh (h : Tracks s rs) (hat : AtDescriptor buffer s d)
    (hlen : d.body.length = 7) (hroom : rs.length < usbMaxinterfaces)
    (hnext : (newInterface buffer s).next = some s') :
    Tracks s' (rs ++ [⟨d.first, []⟩]) := by
  have hcount := h.records.count
  have hbytes := hat.bytes
  have hne : d.body ≠ [] := List.ne_nil_of_length_pos (by omega)
  have hfew : (s.dev noOfIf).toNat < 255 := by
    simp only [usbMaxinterfaces] at hroom
    omega
  have hnumber : s'.dev (ifDesc (some rs.length) + 2) = d.first := by
    rw [← hat.first hne]
    cases hnext
    dsimp only
    rw [← hcount, store_of_ne _ (by simp only [numAltsetting]; omega),
      store_of_ne _ (by simp only [noOfEp]; omega),
      copyIn_add (by rw [read_length, hat.len, Descriptor.bytes_length]; omega),
      read_getElem]
  have hzero := newInterface_noOfEp hnext
  rw [hcount] at hzero
  refine ⟨⟨?_, fun i hi => ?_⟩, ?_, ?_, ?_⟩
  · rw [newInterface_noOfIf hnext, toNat_succ hfew, hcount, List.length_append]
    rfl
  · rw [List.length_append, List.length_singleton] at hi
    rcases Nat.lt_succ_iff_lt_or_eq.mp hi with hlt | rfl
    · rw [List.getElem_append_left hlt]
      refine (h.records.at_index i hlt).congr (h.small _ (List.getElem_mem hlt))
        fun k hge hk _ => newInterface_dev hnext ?_ ?_
      · have := ifDesc_add hlt
        rw [hcount]
        omega
      · have : noOfIf < ifDesc (some i) := le_ifDesc rfl
        omega
    · rw [List.getElem_concat_length rfl]
      exact ⟨hnumber, by rw [hzero]; rfl, fun j hj => absurd hj (Nat.not_lt_zero j)⟩
  · intro r hr
    rcases List.mem_append.mp hr with hr | hr
    · exact h.small r hr
    · rw [List.mem_singleton.mp hr]
      exact ⟨Nat.zero_le _, by simp⟩
  · rw [if_neg (by simp), List.length_append, List.length_singleton, Nat.add_sub_cancel,
      ← hcount]
    cases hnext
    rfl
  · rw [List.getLast?_concat, Option.map_some, ← hnumber, ← hcount]
    cases hnext
    rfl

theorem Tracks.alternate (h : Tracks s rs)
    (hnext : (alternateSetting buffer s).next = some s') (hsome : s.ifno.isSome) :
    Tracks s' rs := by
  obtain ⟨j, hj⟩ := Option.isSome_iff_exists.mp hsome
  have hge := le_ifDesc hsome
  have hifno := h.ifno
  have hcurr := h.curr
  refine ⟨⟨?_, fun i hi => ?_⟩, h.small, ?_, ?_⟩
  · rw [alternateSetting_dev hnext (by omega)]
    exact h.records.count
  · refine (h.records.at_index i hi).congr (h.small _ (List.getElem_mem hi))
      fun k hlow hk hne => alternateSetting_dev hnext ?_
    have hsize : interfaceSize = 156 := rfl
    have halt : numAltsetting = 10 := rfl
    rw [hj]
    rcases lt_trichotomy i j with hlt | rfl | hlt
    · have := ifDesc_add hlt
      omega
    · exact hne
    · have := ifDesc_add hlt
      omega
  · cases hnext
    exact hifno
  · cases hnext
    exact hcurr

/-- An endpoint is recorded behind those before it. -/
theorem RecordAt.append {i : ℕ} {r : Recorded} (h : RecordAt s.dev i r)
    (hat : AtDescriptor buffer s d) (hsmall : Small r)
    (hroom : r.endpoints.length < usbMaxendpoints) (hifno : s.ifno = some i)
    (hnext : (newEndpoint buffer s).next = some s') :
    RecordAt s'.dev i ⟨r.number, r.endpoints ++ [d]⟩ := by
  have hcount := h.count
  simp only [usbMaxendpoints] at hroom
  rw [← hifno] at hcount
  have hbelow : ∀ k, k < ifDesc (some i) + epDesc r.endpoints.length →
      k ≠ ifDesc (some i) + noOfEp → s'.dev k = s.dev k := by
    intro k hk hne
    rw [← hifno] at hk hne
    exact newEndpoint_below hnext (by rw [hcount]; exact hk) hne
  refine ⟨?_, ?_, fun j hj => ?_⟩
  · rw [hbelow _ (by simp only [epDesc]; omega) (by simp only [noOfEp]; omega)]
    exact h.number
  · have hnew := newEndpoint_noOfEp hnext
    rw [hifno] at hnew hcount
    rw [hnew, toNat_succ (by omega), hcount, List.length_append]
    rfl
  · rw [List.length_append, List.length_singleton] at hj
    rcases Nat.lt_succ_iff_lt_or_eq.mp hj with hlt | rfl
    · rw [List.getElem_append_left hlt]
      have hbytes := hsmall.2 _ (List.getElem_mem hlt)
      have hslot := Nat.mul_le_mul_right endpointSize (show j + 1 ≤ r.endpoints.length
        from hlt)
      rw [Nat.succ_mul] at hslot
      refine (h.bytes j hlt).congr fun k hge hk => hbelow k ?_ ?_
      · simp only [epDesc] at hge hk ⊢
        omega
      · simp only [epDesc, noOfEp] at hge ⊢
        omega
    · rw [List.getElem_concat_length rfl]
      have hdev : s'.dev = (s.dev.store (ifDesc s.ifno + noOfEp)
          (s.dev (ifDesc s.ifno + noOfEp) + 1)).copyIn
            (ifDesc s.ifno + epDesc (s.dev (ifDesc s.ifno + noOfEp)).toNat)
            (buffer.read s.index (s.len buffer)) := by
        cases hnext
        rfl
      rw [hdev, hcount, hifno, hat.len, hat.bytes]
      exact holds_copyIn _ _ _

theorem Tracks.endpoint {r : Recorded} (h : Tracks s (rs ++ [r]))
    (hat : AtDescriptor buffer s d) (hlen : d.body.length ≤ 7)
    (hroom : r.endpoints.length < usbMaxendpoints)
    (hnext : (newEndpoint buffer s).next = some s') :
    Tracks s' (rs ++ [⟨r.number, r.endpoints ++ [d]⟩]) := by
  have hcount := h.records.count
  have hifno := h.ifno
  have hcurr := h.curr
  have hlast := h.records.at_index rs.length (by simp)
  rw [List.getElem_concat_length rfl] at hlast
  rw [if_neg (by simp), List.length_append, List.length_singleton,
    Nat.add_sub_cancel] at hifno
  have hge : noOfIf < ifDesc s.ifno := le_ifDesc (by rw [hifno]; rfl)
  refine ⟨⟨?_, fun i hi => ?_⟩, ?_, ?_, ?_⟩
  · rw [newEndpoint_dev hnext (by omega) (by omega), hcount, List.length_append,
      List.length_append]
    rfl
  · rw [List.length_append, List.length_singleton] at hi
    rcases Nat.lt_succ_iff_lt_or_eq.mp hi with hlt | rfl
    · rw [List.getElem_append_left hlt]
      have hold := h.records.at_index i (by simp; omega)
      rw [List.getElem_append_left hlt] at hold
      refine hold.congr (h.small _ (List.mem_append_left _ (List.getElem_mem hlt)))
        fun k _ hk _ => newEndpoint_dev hnext ?_ ?_
      · have := ifDesc_add hlt
        rw [hifno]
        omega
      · have := ifDesc_add hlt
        rw [hifno]
        omega
    · rw [List.getElem_concat_length rfl]
      exact hlast.append hat (h.small r (by simp)) hroom hifno hnext
  · intro r' hr
    rcases List.mem_append.mp hr with hr | hr
    · exact h.small r' (List.mem_append_left _ hr)
    · rw [List.mem_singleton.mp hr]
      have hsmall := h.small r (by simp)
      refine ⟨by rw [List.length_append]; exact hroom, fun e he => ?_⟩
      rcases List.mem_append.mp he with he | he
      · exact hsmall.2 e he
      · rw [List.mem_singleton.mp he, Descriptor.bytes_length]
        simp only [endpointSize]
        omega
  · rw [if_neg (by simp), List.length_append, List.length_singleton, Nat.add_sub_cancel,
      ← hifno]
    cases hnext
    rfl
  · rw [List.getLast?_concat] at hcurr ⊢
    cases hnext
    exact hcurr

/-- The loop records what a descriptor adds. -/
theorem Tracks.pass (h : Tracks s rs) (hat : AtDescriptor buffer s d) (hsized : d.Sized)
    (hok : PassOk buffer s) (hnext : (parsePass buffer s).next = some s') :
    Tracks s' (record rs d) := by
  have hcount := h.records.count
  have hifno := h.ifno
  have hcurr := h.curr
  have hfirst : d.type = 4 → buffer (s.index + 2) = d.first := fun h4 =>
    hat.first (List.ne_nil_of_length_pos (by have := hsized.1 h4; omega))
  have hcase := parsePass_case buffer s
  generalize parsePass buffer s = pass at hcase hnext
  cases hcase with
  | fresh htype hnum =>
      have h4 := hat.type.symm.trans htype
      rw [hcurr, hfirst h4] at hnum
      rw [record, if_pos h4, if_neg (Ne.symm hnum)]
      refine h.fresh hat (hsized.1 h4) ?_ hnext
      rw [← hcount]
      exact (hok.fresh htype (by rw [hcurr, hfirst h4]; exact hnum)).1
  | alternate htype hnum =>
      have h4 := hat.type.symm.trans htype
      have hsome : s.ifno.isSome := by
        rw [hifno]
        split
        · rename_i hnil
          rw [hcurr, hnil] at hnum
          cases hnum
        · rfl
      rw [hcurr, hfirst h4] at hnum
      rw [record, if_pos h4, if_pos hnum.symm]
      exact h.alternate hnext hsome
  | endpoint htype =>
      have h5 := hat.type.symm.trans htype
      have h4 : d.type ≠ 4 := by
        rw [h5]
        decide
      obtain ⟨-, hsome, hroom, -⟩ := hok.endpoint htype
      rcases List.eq_nil_or_concat rs with rfl | ⟨older, r, rfl⟩
      · rw [hifno] at hsome
        cases hsome
      · rw [record, if_neg h4, if_pos h5, List.concat_eq_append, List.getLast?_concat,
          List.dropLast_concat]
        rw [List.concat_eq_append] at h hifno
        refine h.endpoint hat (hsized.2 h5).2 ?_ hnext
        have hlast := h.records.at_index older.length (by simp)
        rw [List.getElem_concat_length rfl] at hlast
        rw [if_neg (by simp), List.length_append, List.length_singleton,
          Nat.add_sub_cancel] at hifno
        rw [← hlast.count, ← hifno]
        exact hroom
  | stop => cases hnext
  | skip h4 h5 =>
      rw [record, if_neg (hat.type ▸ h4), if_neg (hat.type ▸ h5)]
      cases hnext
      exact ⟨h.records, h.small, hifno, hcurr⟩

/-- What the loop has recorded when it has come to the end of the descriptors. -/
theorem records_of_parseLoop {rounds : ℕ} (hinv : ParseInv s) (hcounts : CountsFit s.dev)
    (hok : ∀ rounds, LoopOk buffer rounds s) (h : Tracks s rs)
    (hsized : ∀ d ∈ ds, d.Sized) (hholds : buffer.Holds s.index (encode ds))
    (htotal : totalLength s.dev = s.index + (encode ds).length)
    (hret : (parseLoop buffer rounds s).ret.isSome) :
    Records (parseLoop buffer rounds s).dev (ds.foldl record rs) := by
  induction ds generalizing s rs rounds with
  | nil =>
      cases rounds with
      | zero => cases hret
      | succ rounds =>
          rw [parseLoop_done (by rw [htotal]; simp [encode])]
          exact h.records
  | cons d ds ih =>
      obtain ⟨hat, hrest⟩ := atDescriptor hholds
      rw [encode_cons, List.length_append, Descriptor.bytes_length] at htotal
      have hmore : s.index + 1 < totalLength s.dev := by omega
      have hpass := LoopOk.pass hok hmore
      have hwrites := (hpass.within hinv hcounts).2
      cases rounds with
      | zero => cases hret
      | succ rounds =>
          cases hnext : (parsePass buffer s).next with
          | none =>
              have hcase := parsePass_case buffer s
              generalize parsePass buffer s = pass at hcase hnext
              cases hcase with
              | stop _ _ hlen =>
                  rw [hat.len, Descriptor.bytes_length] at hlen
                  omega
              | _ => cases hnext
          | some s' =>
              have hindex := parsePass_index hnext
              rw [hat.len] at hindex
              rw [parseLoop_next hmore hnext] at hret ⊢
              have hdev := parsePass_totalLength hnext hwrites
              exact ih (hinv.pass hcounts hwrites hnext)
                (hpass.countsFit hinv hcounts hnext) (LoopOk.next hok hmore hnext)
                (h.pass hat (hsized d (List.mem_cons_self ..)) hpass hnext)
                (fun e he => hsized e (List.mem_cons_of_mem _ he)) (hindex ▸ hrest)
                (by rw [hdev, htotal, hindex, Descriptor.bytes_length]; omega) hret

/-! ## The records of a configuration -/

/-- Descriptors that are no interfaces add their endpoints to the last record. -/
theorem foldl_record_items {r : Recorded} (hds : ∀ d ∈ ds, d.type ≠ 4) :
    ds.foldl record (rs ++ [r]) =
      rs ++ [⟨r.number, r.endpoints ++ endpointsOf ds⟩] := by
  induction ds generalizing r with
  | nil => simp [endpointsOf]
  | cons d ds ih =>
      have h4 := hds d (List.mem_cons_self ..)
      have hrest : ∀ e ∈ ds, e.type ≠ 4 := fun e he =>
        hds e (List.mem_cons_of_mem _ he)
      rw [List.foldl_cons, record, if_neg h4]
      by_cases h5 : d.type = 5
      · rw [if_pos h5, List.getLast?_concat, List.dropLast_concat]
        dsimp only
        rw [ih hrest, endpointsOf, endpointsOf, List.filter_cons_of_pos (by simpa using h5),
          List.append_assoc]
        rfl
      · rw [if_neg h5, ih hrest, endpointsOf, endpointsOf,
          List.filter_cons_of_neg (by simpa using h5)]

/-- Neither interfaces nor endpoints: nothing is recorded. -/
theorem foldl_record_extras (hds : ∀ d ∈ ds, d.type ≠ 4 ∧ d.type ≠ 5) :
    ds.foldl record rs = rs := by
  induction ds with
  | nil => rfl
  | cons d ds ih =>
      obtain ⟨h4, h5⟩ := hds d (List.mem_cons_self ..)
      rw [List.foldl_cons, record, if_neg h4, if_neg h5]
      exact ih fun e he => hds e (List.mem_cons_of_mem _ he)

/-- An alternate setting adds its endpoints to the record of its interface. -/
theorem foldl_record_alternate {r : Recorded} {t : Setting} (hnumber : t.number = r.number) :
    t.descriptors.foldl record (rs ++ [r]) =
      rs ++ [⟨r.number, r.endpoints ++ t.endpoints⟩] := by
  have hsame : (rs ++ [r]).getLast?.map Recorded.number = some t.desc.first := by
    rw [List.getLast?_concat, Option.map_some, Setting.desc_first, hnumber]
  rw [Setting.descriptors, List.foldl_cons, record, if_pos t.desc_type, if_pos hsame]
  exact foldl_record_items t.noInterface

/-- An interface with a new number. -/
theorem foldl_record_interface {i : Interface}
    (hnew : rs.getLast?.map Recorded.number ≠ some i.default.number) :
    i.descriptors.foldl record rs = rs ++ [⟨i.default.number, i.endpoints⟩] := by
  have hdefault : i.default.descriptors.foldl record rs =
      rs ++ [⟨i.default.number, i.default.endpoints⟩] := by
    rw [Setting.descriptors, List.foldl_cons, record, if_pos i.default.desc_type,
      Setting.desc_first, if_neg hnew]
    exact foldl_record_items i.default.noInterface
  have halternates : ∀ (ts : List Setting) (es : List Descriptor),
      (∀ t ∈ ts, t.number = i.default.number) →
      (ts.flatMap Setting.descriptors).foldl record (rs ++ [⟨i.default.number, es⟩]) =
        rs ++ [⟨i.default.number, es ++ ts.flatMap Setting.endpoints⟩] := by
    intro ts
    induction ts with
    | nil => simp
    | cons t ts ih =>
        intro es hts
        rw [List.flatMap_cons, List.foldl_append,
          foldl_record_alternate (hts t (List.mem_cons_self ..)),
          ih _ fun u hu => hts u (List.mem_cons_of_mem _ hu), List.flatMap_cons,
          List.append_assoc]
  rw [Interface.descriptors, List.foldl_append, hdefault,
    halternates _ _ i.number_eq, Interface.endpoints]

/-- What should be recorded of an interface. -/
def Interface.recorded (i : Interface) : Recorded := ⟨i.default.number, i.endpoints⟩

/-- The interfaces of a configuration are recorded behind each other. -/
theorem foldl_record_interfaces {is : List Interface}
    (hdistinct : (rs.map Recorded.number ++ is.map (·.default.number)).Nodup) :
    (is.flatMap Interface.descriptors).foldl record rs =
      rs ++ is.map Interface.recorded := by
  induction is generalizing rs with
  | nil => simp
  | cons i is ih =>
      have hnew : rs.getLast?.map Recorded.number ≠ some i.default.number := by
        intro hlast
        obtain ⟨r, hr, hnum⟩ := Option.map_eq_some_iff.mp hlast
        have hdisjoint := List.disjoint_of_nodup_append hdistinct
        exact hdisjoint (List.mem_map_of_mem (List.mem_of_getLast? hr))
          (by rw [hnum]; exact List.mem_cons_self ..)
      rw [List.flatMap_cons, List.foldl_append, foldl_record_interface hnew, ih,
        List.map_cons, List.append_assoc]
      · rfl
      · rwa [List.map_append, List.map_singleton, List.append_assoc]

theorem foldl_record_configuration (c : Configuration) :
    c.descriptors.foldl record [] = c.interfaces.map Interface.recorded := by
  have hinterfaces : (c.interfaces.flatMap Interface.descriptors).foldl record [] =
      [] ++ c.interfaces.map Interface.recorded :=
    foldl_record_interfaces c.distinct
  rw [Configuration.descriptors, List.foldl_append, foldl_record_extras c.extras_type,
    hinterfaces, List.nil_append]

/-! ## Once under its interface -/

theorem mem_endpoints {t : Setting} {e : Descriptor} (he : e ∈ t.endpoints) :
    e.body ≠ [] := by
  obtain ⟨hmem, htype⟩ := List.mem_filter.mp he
  have hlen := ((t.sized e hmem).2 (by simpa using htype)).1
  exact List.ne_nil_of_length_pos (by omega)

theorem Interface.body_ne_nil {i : Interface} {e : Descriptor} (he : e ∈ i.endpoints) :
    e.body ≠ [] := by
  rcases List.mem_append.mp he with he | he
  · exact mem_endpoints he
  · obtain ⟨t, -, he⟩ := List.mem_flatMap.mp he
    exact mem_endpoints he

/-- The byte behind the type of a descriptor in memory. -/
theorem Descriptor.first_of_holds {m : Memory UInt8} {p : ℕ} (h : m.Holds p d.bytes)
    (hne : d.body ≠ []) : m (p + 2) = d.first := by
  obtain ⟨b, rest, hbody⟩ := List.exists_cons_of_ne_nil hne
  rw [Descriptor.first, hbody]
  have := h 2 (by rw [Descriptor.bytes_length, hbody, List.length_cons]; omega)
  simpa [Descriptor.bytes, hbody] using this

/-- An endpoint of the default setting is the first one of the interface with its
address, and where no alternate setting repeats it the only one. -/
theorem Interface.noRepeat_iff (i : Interface) :
    i.NoRepeat ↔ ∀ b (hb : b < i.default.endpoints.length) j (hj : j < i.endpoints.length),
      i.endpoints[j].first = i.default.endpoints[b].first → j = b := by
  constructor
  · intro hno b hb j hj hsame
    by_cases hlt : j < i.default.endpoints.length
    · have hdistinct : (i.default.endpoints.map Descriptor.first).Nodup :=
        i.default.distinct
      have hlt' : j < (i.default.endpoints.map Descriptor.first).length := by
        simpa using hlt
      have hb' : b < (i.default.endpoints.map Descriptor.first).length := by
        simpa using hb
      simp only [Interface.endpoints, List.getElem_append_left hlt] at hsame
      have hfirst : (i.default.endpoints.map Descriptor.first)[j] =
          (i.default.endpoints.map Descriptor.first)[b] := by
        simpa using hsame
      exact hdistinct.getElem_inj_iff.mp hfirst
    · have hk : j - i.default.endpoints.length <
          (i.alternates.flatMap Setting.endpoints).length := by
        simp only [Interface.endpoints, List.length_append] at hj
        omega
      simp only [Interface.endpoints,
        List.getElem_append_right (not_lt.mp hlt)] at hsame
      obtain ⟨t, ht, he⟩ := List.mem_flatMap.mp (List.getElem_mem hk)
      exact absurd hsame (hno _ (List.getElem_mem hb) t ht _ he)
  · intro honly e he t ht e' he' hsame
    obtain ⟨b, hb, rfl⟩ := List.getElem_of_mem he
    obtain ⟨k, hk, hek⟩ := List.getElem_of_mem (List.mem_flatMap.mpr ⟨t, ht, he'⟩)
    have hj : i.default.endpoints.length + k < i.endpoints.length := by
      simp only [Interface.endpoints, List.length_append]
      omega
    have heq := honly b hb _ hj (by
      simp only [Interface.endpoints, List.getElem_append_right (Nat.le_add_right ..),
        Nat.add_sub_cancel_left]
      rw [hek, hsame])
    omega

/-- From the records of a configuration: every endpoint of a default setting is
recorded once exactly when no alternate setting repeats it. -/
theorem recordsDefaults_iff {dev : Memory UInt8} {c : Configuration}
    (h : Records dev (c.interfaces.map Interface.recorded)) :
    RecordsDefaults dev c ↔ ∀ i ∈ c.interfaces, i.NoRepeat := by
  have hcount := h.count
  rw [List.length_map] at hcount
  have hat : ∀ a (ha : a < c.interfaces.length), RecordAt dev a c.interfaces[a].recorded := by
    intro a ha
    have := h.at_index a (by simpa using ha)
    simpa using this
  have haddress : ∀ a (ha : a < c.interfaces.length) j
      (hj : j < c.interfaces[a].endpoints.length),
      dev (ifDesc (some a) + epDesc j + 2) = c.interfaces[a].endpoints[j].first :=
    fun a ha j hj => Descriptor.first_of_holds ((hat a ha).bytes j hj)
      (Interface.body_ne_nil (List.getElem_mem hj))
  constructor
  · intro hdefaults i hi
    obtain ⟨a, ha, rfl⟩ := List.getElem_of_mem hi
    rw [Interface.noRepeat_iff]
    intro b hb j hj hsame
    obtain ⟨i', j', -, honce⟩ := hdefaults _ hi _ (List.getElem_mem hb)
    have hb' : b < c.interfaces[a].endpoints.length := by
      simp only [Interface.endpoints, List.length_append]
      omega
    have hfirst : c.interfaces[a].endpoints[b] = c.interfaces[a].default.endpoints[b] := by
      simp only [Interface.endpoints, List.getElem_append_left hb]
    have hslot : ∀ k (hk : k < c.interfaces[a].endpoints.length),
        c.interfaces[a].endpoints[k].first = c.interfaces[a].default.endpoints[b].first →
          k = j' := fun k hk hk' =>
      ((honce a k).mp ⟨by omega, by rw [(hat a ha).count]; exact hk, (hat a ha).number,
        by rw [haddress a ha k hk, hk']⟩).2
    rw [hslot j hj hsame, hslot b hb' (by rw [hfirst])]
  · intro hno i hi e he
    obtain ⟨a, ha, rfl⟩ := List.getElem_of_mem hi
    obtain ⟨b, hb, rfl⟩ := List.getElem_of_mem he
    have honly := (Interface.noRepeat_iff _).mp (hno _ hi) b hb
    have hb' : b < c.interfaces[a].endpoints.length := by
      simp only [Interface.endpoints, List.length_append]
      omega
    have hfirst : c.interfaces[a].endpoints[b] = c.interfaces[a].default.endpoints[b] := by
      simp only [Interface.endpoints, List.getElem_append_left hb]
    refine ⟨a, b, by rw [← hfirst]; exact (hat a ha).bytes b hb', fun i' j' => ⟨?_, ?_⟩⟩
    · rintro ⟨hi', hj', hnumber, haddr⟩
      rw [hcount] at hi'
      have hsame : i' = a := by
        have hi'' : i' < (c.interfaces.map fun i => i.default.number).length := by
          simpa using hi'
        have ha' : a < (c.interfaces.map fun i => i.default.number).length := by
          simpa using ha
        have hnumbers : (c.interfaces.map fun i => i.default.number)[i'] =
            (c.interfaces.map fun i => i.default.number)[a] := by
          rw [(hat i' hi').number] at hnumber
          simpa [Interface.recorded] using hnumber
        exact c.distinct.getElem_inj_iff.mp hnumbers
      subst hsame
      rw [(hat i' hi').count] at hj'
      rw [haddress i' hi' j' hj'] at haddr
      exact ⟨rfl, honly j' hj' haddr⟩
    · rintro ⟨rfl, rfl⟩
      exact ⟨by omega, by rw [(hat i' ha).count]; exact hb', (hat i' ha).number,
        by rw [haddress i' ha j' hb', hfirst]⟩

/-! ## A buffer that holds a configuration -/

/-- The lengths of the descriptors of a configuration. -/
theorem sized_of_mem {c : Configuration} {d : Descriptor} (hd : d ∈ c.descriptors) :
    d.Sized := by
  have hsetting : ∀ t : Setting, d ∈ t.descriptors → d.Sized := by
    intro t ht
    rcases List.mem_cons.mp ht with rfl | hitem
    · refine ⟨fun _ => by simp [Setting.desc, t.info_length], fun h5 => ?_⟩
      rw [Setting.desc_type] at h5
      exact absurd h5 (by decide)
    · exact t.sized d hitem
  rcases List.mem_append.mp hd with hextra | hinterface
  · obtain ⟨h4, h5⟩ := c.extras_type d hextra
    exact ⟨fun h => absurd h h4, fun h => absurd h h5⟩
  · obtain ⟨i, -, hi⟩ := List.mem_flatMap.mp hinterface
    rcases List.mem_append.mp hi with hdefault | halternate
    · exact hsetting _ hdefault
    · obtain ⟨t, -, ht⟩ := List.mem_flatMap.mp halternate
      exact hsetting t ht

/-- The loop starts behind the descriptor of the configuration, with nothing
recorded. -/
theorem HoldsConfig.start {c : Configuration} (h : HoldsConfig buffer c)
    (dev : Memory UInt8) :
    buffer 1 = 2 ∧ (ConfigParse.start buffer dev).index = 9 ∧
      totalLength (ConfigParse.start buffer dev).dev = c.total ∧
      buffer.Holds 9 (encode c.descriptors) ∧
      Tracks (ConfigParse.start buffer dev) [] := by
  obtain ⟨htotal, hbytes⟩ := h
  have hsplit : c.bytes = [9, 2, UInt8.ofNat c.total, UInt8.ofNat (c.total / 256)] ++
      ([UInt8.ofNat c.interfaces.length] ++ c.info) ++ encode c.descriptors := by
    simp [Configuration.bytes]
  rw [hsplit, holds_append, holds_append] at hbytes
  obtain ⟨⟨hheader, -⟩, hrest⟩ := hbytes
  obtain ⟨h0, h1, h2, h3⟩ : buffer 0 = 9 ∧ buffer 1 = 2 ∧
      buffer 2 = UInt8.ofNat c.total ∧ buffer 3 = UInt8.ofNat (c.total / 256) := by
    simpa [holds_cons] using hheader
  have hcopied : ∀ k < 9,
      dev.copyIn configAt (buffer.read 0 9) (configAt + k) = buffer k := by
    intro k hk
    rw [copyIn_add (by rwa [read_length]), read_getElem, Nat.zero_add]
  have hlen : (buffer 0).toNat = 9 := by
    rw [h0]
    rfl
  refine ⟨h1, ?_, ?_, ?_, ⟨?_, fun i hi => absurd hi (Nat.not_lt_zero i)⟩, by simp, rfl,
    rfl⟩
  · have hzero := hcopied 0 (by decide)
    rw [Nat.add_zero] at hzero
    rw [ConfigParse.start, hlen]
    dsimp only
    rw [hzero, hlen]
  · rw [ConfigParse.start, hlen, totalLength, leHalf]
    dsimp only
    rw [store_of_ne _ (by simp only [noOfIf]; omega),
      store_of_ne _ (by simp only [noOfIf]; omega), hcopied 2 (by decide),
      hcopied 3 (by decide), h2, h3, UInt8.toNat_ofNat', UInt8.toNat_ofNat']
    simp only [usbBufsiz] at htotal
    omega
  · simpa [c.info_length] using hrest
  · rw [ConfigParse.start]
    dsimp only
    rw [store_same]
    rfl

/-- What is recorded from a buffer that holds a configuration. -/
theorem records_of_usbParseConfig {c : Configuration} {dev : Memory UInt8} {rounds : ℕ}
    (h : HoldsConfig buffer c) (hsafe : RunSafe (usbParseConfig buffer dev))
    (hret : (usbParseConfig buffer dev rounds).ret.isSome) :
    Records (usbParseConfig buffer dev rounds).dev
      (c.interfaces.map Interface.recorded) := by
  obtain ⟨htype, hindex, htotal, hrest, htracks⟩ := h.start dev
  have hok := (usbParseConfig_safe_iff buffer dev).mp hsafe htype
  rw [usbParseConfig, if_neg (not_not.mpr htype)] at hret ⊢
  rw [← foldl_record_configuration]
  exact records_of_parseLoop (ParseInv.start buffer dev) (countsFit_start buffer dev) hok
    htracks (fun d hd => sized_of_mem hd) (by rwa [hindex])
    (by rw [htotal, hindex, Configuration.total]) hret

/-! ## Every buffer -/

/-- `usb_parse_config` ends, stays in the buffer and in the configuration, records
no more than there is room for, and from a configuration it records every endpoint
of a default setting once, under its interface. -/
def ParsesRight (buffer dev : Memory UInt8) : Prop :=
  RunSafe (usbParseConfig buffer dev) ∧
    ∀ c, HoldsConfig buffer c → ∀ rounds,
      (usbParseConfig buffer dev rounds).ret.isSome →
        RecordsDefaults (usbParseConfig buffer dev rounds).dev c

/-- It does so exactly when every descriptor is one the loop can take, and no
alternate setting repeats an endpoint of the default one. -/
theorem usbParseConfig_right_iff (buffer dev : Memory UInt8) :
    ParsesRight buffer dev ↔
      (buffer 1 = 2 → ∀ rounds, LoopOk buffer rounds (ConfigParse.start buffer dev)) ∧
        ∀ c, HoldsConfig buffer c → ∀ i ∈ c.interfaces, i.NoRepeat := by
  rw [ParsesRight, usbParseConfig_safe_iff, and_congr_right_iff]
  intro hok
  have hsafe := (usbParseConfig_safe_iff buffer dev).mpr hok
  refine forall₂_congr fun c hc => ?_
  constructor
  · intro hdefaults
    obtain ⟨rounds, hret⟩ := hsafe.ends
    exact (recordsDefaults_iff (records_of_usbParseConfig hc hsafe hret)).mp
      (hdefaults rounds hret)
  · intro hno rounds hret
    exact (recordsDefaults_iff (records_of_usbParseConfig hc hsafe hret)).mpr hno

/-! ## An endpoint without an interface -/

/-- A configuration descriptor with an endpoint right behind it. -/
def strayEndpoint : List UInt8 :=
  [9, 2, 16, 0, 1, 1, 0, 0x80, 50, 7, 5, 0x81, 2, 64, 0, 0]

/-- The endpoint is counted in front of `config`. -/
theorem strayEndpoint_not_right : ¬ParsesRight (ofList 0 strayEndpoint) fun _ => 0 := by
  rintro ⟨hsafe, -⟩
  have hwrite : ∃ w ∈ (usbParseConfig (ofList 0 strayEndpoint) (fun _ => 0) 1).writes,
      w.start + w.length ≤ configAt ∧ w.length = 1 := by
    decide
  obtain ⟨w, hw, hbefore, hlen⟩ := hwrite
  rcases hsafe.writes 1 w hw with hempty | ⟨hge, -⟩
  · omega
  · omega

end TateFirmware.Usb
