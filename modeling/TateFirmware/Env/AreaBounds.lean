import TateFirmware.Env.AreaReads

/-!
# What is read of a damaged environment

The functions stay within the area exactly if it is a list of strings that ends
inside the area, or has a string before that at which they stop, and no comparison
with a name goes on to the end of the area.
-/

namespace TateFirmware.Env

open LibGeneric Support

/-! ## Names -/

/-- The name, from its `k`-th character on, is the one in front of `value`. -/
def Agrees (name : Memory UInt8) (k : ℕ) (area value : List UInt8) : Prop :=
  ∃ front, area = front ++ ch '=' :: value ∧ ch '=' ∉ front ∧
    name.Holds k front ∧
    (name (k + front.length) = ch '=' ∨ name (k + front.length) = 0)

/-- The area has a character that differs from the name before the name ends. -/
def Differs (name : Memory UInt8) (k : ℕ) (area : List UInt8) : Prop :=
  ∃ front c rest, area = front ++ c :: rest ∧ ch '=' ∉ front ∧
    name.Holds k front ∧ name (k + front.length) ≠ c ∧
    ¬ (name (k + front.length) = 0 ∧ c = ch '=')

section Match

variable {name : Memory UInt8} {k i : ℕ} {c : UInt8} {rest value : List UInt8}

theorem agrees_cons_of_eq (hc : name k = c) (hne : c ≠ ch '=') :
    Agrees name k (c :: rest) value ↔ Agrees name (k + 1) rest value := by
  constructor
  · rintro ⟨front, harea, hfront, hholds, hend⟩
    cases front with
    | nil => exact absurd (List.cons.inj harea).1 hne
    | cons a front =>
        obtain ⟨rfl, hrest⟩ := List.cons.inj harea
        refine ⟨front, hrest, fun h => hfront (List.mem_cons_of_mem _ h),
          (Memory.holds_cons.mp hholds).2, ?_⟩
        rwa [Nat.add_assoc, Nat.add_comm 1]
  · rintro ⟨front, rfl, hfront, hholds, hend⟩
    refine ⟨c :: front, rfl, ?_, Memory.holds_cons.mpr ⟨hc, hholds⟩, ?_⟩
    · intro hmem
      exact (List.mem_cons.mp hmem).elim (fun heq => hne heq.symm) hfront
    · rwa [Nat.add_assoc, Nat.add_comm 1] at hend

theorem differs_cons_of_eq (hc : name k = c) (hne : c ≠ ch '=') :
    Differs name k (c :: rest) ↔ Differs name (k + 1) rest := by
  constructor
  · rintro ⟨front, d, tail, harea, hfront, hholds, hend⟩
    cases front with
    | nil => exact absurd (hc.trans (List.cons.inj harea).1) hend.1
    | cons a front =>
        obtain ⟨rfl, hrest⟩ := List.cons.inj harea
        refine ⟨front, d, tail, hrest,
          fun h => hfront (List.mem_cons_of_mem _ h),
          (Memory.holds_cons.mp hholds).2, ?_⟩
        rwa [Nat.add_assoc, Nat.add_comm 1]
  · rintro ⟨front, d, tail, rfl, hfront, hholds, hend⟩
    refine ⟨c :: front, d, tail, rfl, ?_, Memory.holds_cons.mpr ⟨hc, hholds⟩, ?_⟩
    · intro hmem
      exact (List.mem_cons.mp hmem).elim (fun heq => hne heq.symm) hfront
    · rwa [Nat.add_assoc, Nat.add_comm 1] at hend

/-- A comparison ends with a match, ends without one, or goes on to the end of the
area. -/
theorem envmatchFrom_spec (name : Memory UInt8) (area : List UInt8) (k i : ℕ) :
    match envmatchFrom name area k i with
    | some (some (_, value)) => Agrees name k area value ∧ ¬ Differs name k area
    | some none => Differs name k area ∧ ∀ value, ¬ Agrees name k area value
    | none => ¬ Differs name k area ∧ ∀ value, ¬ Agrees name k area value := by
  induction area generalizing k i with
  | nil =>
      refine ⟨?_, ?_⟩
      · rintro ⟨front, c, rest, harea, -⟩
        exact absurd harea (by simp)
      · rintro value ⟨front, harea, -⟩
        exact absurd harea (by simp)
  | cons c rest ih =>
      rw [envmatchFrom]
      by_cases hc : name k = c
      · rw [if_pos hc]
        by_cases heq : name k = ch '='
        · rw [if_pos heq]
          have hch : c = ch '=' := hc.symm.trans heq
          refine ⟨⟨[], by rw [hch]; rfl, List.not_mem_nil, by simp,
            Or.inl heq⟩, ?_⟩
          rintro ⟨front, d, tail, harea, hfront, hholds, hend⟩
          cases front with
          | nil => exact hend.1 (hc.trans (List.cons.inj harea).1)
          | cons a front =>
              rw [← (List.cons.inj harea).1, hch] at hfront
              exact hfront List.mem_cons_self
        · rw [if_neg heq]
          have hne : c ≠ ch '=' := fun hch => heq (hc.trans hch)
          have hrest := ih (k + 1) (i + 1)
          simp only [agrees_cons_of_eq hc hne, differs_cons_of_eq hc hne]
          exact hrest
      · rw [if_neg hc]
        by_cases hend : name k = 0 ∧ c = ch '='
        · rw [if_pos hend]
          refine ⟨⟨[], by rw [hend.2]; rfl, List.not_mem_nil, by simp,
            Or.inr hend.1⟩, ?_⟩
          rintro ⟨front, d, tail, harea, hfront, hholds, hdiff⟩
          cases front with
          | nil => exact hdiff.2 ⟨hend.1, (List.cons.inj harea).1 ▸ hend.2⟩
          | cons a front =>
              rw [← (List.cons.inj harea).1, hend.2] at hfront
              exact hfront List.mem_cons_self
        · rw [if_neg hend]
          refine ⟨⟨[], c, rest, rfl, List.not_mem_nil, by simp, hc, hend⟩, ?_⟩
          rintro value ⟨front, harea, -, hholds, hvalue⟩
          cases front with
          | nil =>
              obtain ⟨rfl, -⟩ := List.cons.inj harea
              exact hvalue.elim hc fun hzero => hend ⟨hzero, rfl⟩
          | cons a front =>
              obtain ⟨rfl, -⟩ := List.cons.inj harea
              exact hc (Memory.holds_cons.mp hholds).1

theorem Agrees.value_eq {area value' : List UInt8}
    (h : Agrees name k area value) (h' : Agrees name k area value') :
    value = value' := by
  obtain ⟨front, rfl, hfront, -⟩ := h
  obtain ⟨front', harea, hfront', -⟩ := h'
  exact (append_cons_inj hfront hfront' harea).2

end Match

/-! ## Strings -/

/-- The area starts with a string that is not empty and whose name differs. -/
def Passes (name : Memory UInt8) (s rest : List UInt8) : Prop :=
  Proper 0 s ∧ Differs name 0 (s ++ 0 :: rest)

/-- The strings of the area up to one that is empty, or whose name agrees and whose
value is as wanted. -/
def Ends (name : Memory UInt8) (good : List UInt8 → Prop)
    (area : List UInt8) : Prop :=
  ∃ ss tail, area = flat 0 ss ++ tail ∧
    (∀ a s b, ss = a ++ s :: b → Passes name s (flat 0 b ++ tail)) ∧
    ((∃ rest, tail = 0 :: rest) ∨
      ∃ s rest value, tail = s ++ 0 :: rest ∧ Proper 0 s ∧
        Agrees name 0 tail value ∧ good value)

section Scan

variable {name : Memory UInt8} {good : List UInt8 → Prop}
  {area s rest : List UInt8} {limit : Option ℕ} {i : ℕ}

theorem ends_zero : Ends name good (0 :: rest) :=
  ⟨[], _, rfl, fun a s b h => absurd h (by simp), Or.inl ⟨rest, rfl⟩⟩

theorem ends_of_agrees {value : List UInt8} (hs : Proper 0 s)
    (hvalue : Agrees name 0 (s ++ 0 :: rest) value) (hgood : good value) :
    Ends name good (s ++ 0 :: rest) :=
  ⟨[], _, rfl, fun a s b h => absurd h (by simp),
    Or.inr ⟨s, rest, value, rfl, hs, hvalue, hgood⟩⟩

theorem ends_of_passes (hpass : Passes name s rest)
    (hrest : Ends name good rest) : Ends name good (s ++ 0 :: rest) := by
  obtain ⟨ss, tail, rfl, hpasses, hend⟩ := hrest
  refine ⟨s :: ss, tail, by simp [flat_cons], ?_, hend⟩
  intro a t b hsplit
  cases a with
  | nil =>
      obtain ⟨rfl, rfl⟩ := List.cons.inj hsplit
      exact hpass
  | cons _ a =>
      exact hpasses a t b (List.cons.inj hsplit).2

/-- The ways in which an area can end. -/
theorem Ends.cases (h : Ends name good area) :
    (∃ rest, area = 0 :: rest) ∨ ∃ s rest, area = s ++ 0 :: rest ∧
      Proper 0 s ∧ ((∃ value, Agrees name 0 area value ∧ good value) ∨
        Differs name 0 area ∧ Ends name good rest) := by
  obtain ⟨ss, tail, rfl, hpasses, hend⟩ := h
  cases ss with
  | nil =>
      rcases hend with ⟨rest, rfl⟩ | ⟨s, rest, value, rfl, hs, hvalue, hgood⟩
      · exact Or.inl ⟨rest, rfl⟩
      · exact Or.inr ⟨s, rest, rfl, hs, Or.inl ⟨value, hvalue, hgood⟩⟩
  | cons s ss =>
      obtain ⟨hs, hdiffers⟩ := hpasses [] s ss rfl
      have harea : flat 0 (s :: ss) ++ tail = s ++ 0 :: (flat 0 ss ++ tail) := by
        simp [flat_cons]
      refine Or.inr ⟨s, flat 0 ss ++ tail, harea, hs, Or.inr ⟨?_, ss, tail, rfl,
        fun a t b hsplit => hpasses (s :: a) t b (by rw [hsplit]; rfl), hend⟩⟩
      rw [harea]
      exact hdiffers

/-- A string that ends in the area. -/
theorem findEnd_eq (hlimit : ∀ bound ∈ limit, i + s.length ≤ bound)
    (hs : (0 : UInt8) ∉ s) :
    findEnd limit (s ++ 0 :: rest) i = some (some (i + s.length, rest)) := by
  induction s generalizing i with
  | nil => rfl
  | cons c s ih =>
      have hc : c ≠ 0 := by
        rintro rfl
        exact hs List.mem_cons_self
      have hno : ¬ limit.any (· ≤ i) = true := by
        cases limit with
        | none => simp
        | some bound =>
            have hle := hlimit bound rfl
            rw [List.length_cons] at hle
            simp only [Option.any_some, decide_eq_true_eq]
            omega
      have hnext : i + 1 + s.length = i + (c :: s).length := by
        rw [List.length_cons]
        omega
      rw [List.cons_append, findEnd, if_neg hc, if_neg hno,
        ih (fun bound hb => hnext ▸ hlimit bound hb)
          (fun hmem => hs (List.mem_cons_of_mem c hmem)), hnext]

/-- A string that does not end in the area. -/
theorem findEnd_eq_none (hlimit : ∀ bound ∈ limit, i + area.length ≤ bound)
    (harea : (0 : UInt8) ∉ area) : findEnd limit area i = none := by
  induction area generalizing i with
  | nil => rfl
  | cons c area ih =>
      have hc : c ≠ 0 := by
        rintro rfl
        exact harea List.mem_cons_self
      have hno : ¬ limit.any (· ≤ i) = true := by
        cases limit with
        | none => simp
        | some bound =>
            have hle := hlimit bound rfl
            rw [List.length_cons] at hle
            simp only [Option.any_some, decide_eq_true_eq]
            omega
      rw [findEnd, if_neg hc, if_neg hno]
      refine ih (fun bound hb => ?_)
        (fun hmem => harea (List.mem_cons_of_mem c hmem))
      have hle := hlimit bound hb
      rw [List.length_cons] at hle
      omega

theorem scan_cons {c : UInt8} (hc : c ≠ 0) :
    scan limit name (c :: area) i =
      match findEnd limit (c :: area) i with
      | none => none
      | some none => some none
      | some (some (nxt, rest)) =>
          match envmatchFrom name (c :: area) 0 i with
          | none => none
          | some (some (val, value)) => some (some ⟨nxt, val, value⟩)
          | some none => scan limit name rest (nxt + 1) := by
  rw [scan, if_neg hc]
  split
  · rename_i heq
    rw [heq]
  · rename_i heq
    rw [heq]
  · rename_i heq
    exact heq ▸ rfl

theorem scan_string (hlimit : ∀ bound ∈ limit, i + s.length ≤ bound)
    (hs : Proper 0 s) :
    scan limit name (s ++ 0 :: rest) i =
      match envmatchFrom name (s ++ 0 :: rest) 0 i with
      | none => none
      | some (some (val, value)) => some (some ⟨i + s.length, val, value⟩)
      | some none => scan limit name rest (i + s.length + 1) := by
  obtain ⟨hne, hz⟩ := hs
  have hend := @findEnd_eq s rest limit i hlimit hz
  cases s with
  | nil => exact absurd rfl hne
  | cons c s =>
      have hc : c ≠ 0 := by
        rintro rfl
        exact hz List.mem_cons_self
      rw [List.cons_append, scan_cons hc, ← List.cons_append, hend]

/-- The loop over the strings stays within the area exactly if it ends there. -/
theorem scan_iff (hlimit : ∀ bound ∈ limit, i + area.length ≤ bound) :
    (∃ r, scan limit name area i = some r ∧ ∀ found ∈ r, good found.value) ↔
      Ends name good area := by
  induction hn : area.length using Nat.strongRecOn generalizing area i with
  | ind n ih =>
      by_cases hzero : (0 : UInt8) ∈ area
      · obtain ⟨s, rest, rfl, hs⟩ := List.eq_append_cons_of_mem hzero
        rw [List.length_append, List.length_cons] at hlimit hn
        by_cases hne : s = []
        · subst hne
          rw [List.nil_append, scan, if_pos rfl]
          exact iff_of_true ⟨none, rfl, fun found h => by cases h⟩ ends_zero
        · have hproper : Proper 0 s := ⟨hne, hs⟩
          rw [scan_string (fun bound hb =>
            le_trans (by omega) (hlimit bound hb)) hproper]
          have hspec := envmatchFrom_spec name (s ++ 0 :: rest) 0 i
          have hunique : ∀ {t rest' : List UInt8}, Proper 0 t →
              s ++ 0 :: rest = t ++ 0 :: rest' → rest = rest' :=
            fun ht heq => (append_cons_inj hs ht.2 heq).2
          have hfirst : ∀ rest' : List UInt8, s ++ 0 :: rest ≠ 0 :: rest' :=
            fun rest' heq => hne
              (append_cons_inj (t := []) hs List.not_mem_nil heq).1
          cases hmatch : envmatchFrom name (s ++ 0 :: rest) 0 i with
          | none =>
              rw [hmatch] at hspec
              refine iff_of_false (fun ⟨r, hr, _⟩ => by cases hr) fun hends => ?_
              rcases hends.cases with ⟨rest', heq⟩ | ⟨t, rest', -, -,
                ⟨value, hvalue, -⟩ | ⟨hdiffers, -⟩⟩
              · exact hfirst rest' heq
              · exact hspec.2 value hvalue
              · exact hspec.1 hdiffers
          | some found =>
              cases found with
              | none =>
                  rw [hmatch] at hspec
                  dsimp only
                  rw [ih rest.length (by omega)
                    (fun bound hb => le_trans (by omega) (hlimit bound hb)) rfl]
                  refine ⟨ends_of_passes ⟨hproper, hspec.1⟩, fun hends => ?_⟩
                  rcases hends.cases with ⟨rest', heq⟩ | ⟨t, rest', heq, ht,
                    ⟨value, hvalue, -⟩ | ⟨-, hrest⟩⟩
                  · exact absurd heq (hfirst rest')
                  · exact absurd hvalue (hspec.2 value)
                  · rwa [hunique ht heq]
              | some found =>
                  obtain ⟨val, value⟩ := found
                  rw [hmatch] at hspec
                  dsimp only
                  constructor
                  · rintro ⟨r, hr, hgood⟩
                    obtain rfl := Option.some.inj hr
                    exact ends_of_agrees hproper hspec.1 (hgood _ rfl)
                  · intro hends
                    refine ⟨_, rfl, fun found hfound => ?_⟩
                    obtain rfl := Option.some.inj hfound
                    rcases hends.cases with ⟨rest', heq⟩ | ⟨t, rest', -, -,
                      ⟨value', hvalue', hgood⟩ | ⟨hdiffers, -⟩⟩
                    · exact absurd heq (hfirst rest')
                    · rwa [hspec.1.value_eq hvalue']
                    · exact absurd hdiffers hspec.2
      · have hnone : scan limit name area i = none := by
          cases area with
          | nil => rw [scan]
          | cons c area =>
              have hc : c ≠ 0 := by
                rintro rfl
                exact hzero List.mem_cons_self
              rw [scan_cons hc, findEnd_eq_none hlimit hzero]
        refine iff_of_false (fun ⟨r, hr, _⟩ => ?_) fun hends => hzero ?_
        · rw [hnone] at hr
          cases hr
        · rcases hends.cases with ⟨rest, rfl⟩ | ⟨s, rest, rfl, -⟩
          · exact List.mem_cons_self
          · simp

end Scan

/-! ## The functions -/

/-- A copy of `len` bytes at most ends in the area. -/
def CopyEnds (len : ℕ) (value : List UInt8) : Prop :=
  (0 : UInt8) ∈ value ∨ len ≤ value.length

theorem copyBytes_isSome_iff (len : ℕ) (value : List UInt8) :
    (copyBytes len value).isSome ↔ CopyEnds len value := by
  unfold CopyEnds
  induction len generalizing value with
  | zero => simp [copyBytes]
  | succ len ih =>
      cases value with
      | nil => simp [copyBytes]
      | cons c value =>
          rw [copyBytes]
          by_cases hc : c = 0
          · simp [hc]
          · rw [if_neg hc, Option.isSome_map, ih]
            simp [Ne.symm hc]

/-- Bytes of the area. -/
theorem readUpTo_isSome {area : List UInt8} {k nxt : ℕ}
    (h : nxt ≤ area.length) : (readUpTo area k nxt).isSome := by
  unfold readUpTo
  have hall : ∀ j ∈ List.range' k (nxt - k), (area[j]?).isSome := by
    intro j hj
    obtain ⟨hge, hlt⟩ := List.mem_range'_1.mp hj
    rw [List.getElem?_eq_getElem (by omega)]
    rfl
  generalize List.range' k (nxt - k) = js at hall
  induction js with
  | nil => rfl
  | cons j js ih =>
      obtain ⟨c, hc⟩ := Option.isSome_iff_exists.mp (hall j List.mem_cons_self)
      obtain ⟨bytes, hbytes⟩ := Option.isSome_iff_exists.mp
        (ih fun j' hj' => hall j' (List.mem_cons_of_mem j hj'))
      rw [List.mapM_cons, hc, hbytes]
      rfl

/-- A function that works on every element. -/
theorem mapM_isSome_iff {α β : Type*} (f : α → Option β) (l : List α) :
    (l.mapM f).isSome ↔ ∀ a ∈ l, (f a).isSome := by
  induction l with
  | nil => simp
  | cons a l ih =>
      rw [List.mapM_cons, List.forall_mem_cons, ← ih]
      cases f a with
      | none => simp
      | some b => cases l.mapM f <;> simp

/-- The end of a string that has been found. -/
theorem scan_nxt_lt {limit : Option ℕ} {name : Memory UInt8}
    {area : List UInt8} {i : ℕ} {found : Found}
    (hlimit : ∀ bound ∈ limit, i + area.length ≤ bound)
    (h : scan limit name area i = some (some found)) :
    found.nxt < i + area.length := by
  induction hn : area.length using Nat.strongRecOn generalizing area i with
  | ind n ih =>
      by_cases hzero : (0 : UInt8) ∈ area
      · obtain ⟨s, rest, rfl, hs⟩ := List.eq_append_cons_of_mem hzero
        rw [List.length_append, List.length_cons] at hlimit hn
        by_cases hne : s = []
        · subst hne
          rw [List.nil_append, scan, if_pos rfl] at h
          cases h
        · rw [scan_string (fun bound hb =>
            le_trans (by omega) (hlimit bound hb)) ⟨hne, hs⟩] at h
          split at h
          · cases h
          · obtain rfl := Option.some.inj (Option.some.inj h)
            dsimp only
            omega
          · have hlt := ih rest.length (by omega)
              (fun bound hb => le_trans (by omega) (hlimit bound hb)) h rfl
            omega
      · cases area with
        | nil =>
            rw [scan] at h
            cases h
        | cons c area =>
            have hc : c ≠ 0 := by
              rintro rfl
              exact hzero List.mem_cons_self
            rw [scan_cons hc, findEnd_eq_none hlimit hzero] at h
            cases h

/-! ## Printing all variables -/

/-- The strings of the area up to an empty one, or up to a Ctrl-C; `count` strings
have been printed before. -/
def Listed (ctrlc : ℕ → Bool) (count : ℕ) (area : List UInt8) : Prop :=
  ∃ ss tail, area = flat 0 ss ++ tail ∧ (∀ s ∈ ss, Proper 0 s) ∧
    ((∃ rest, tail = 0 :: rest) ∨
      ∃ k, ss.length = k + 1 ∧ ctrlc (count + k) = true)

section PrintAll

variable {ctrlc : ℕ → Bool} {count i : ℕ} {area left s rest : List UInt8}

/-- The ways in which a list of strings can go on. -/
theorem listed_string (hs : Proper 0 s) :
    Listed ctrlc count (s ++ 0 :: rest) ↔
      ctrlc count = true ∨ Listed ctrlc (count + 1) rest := by
  constructor
  · rintro ⟨ss, tail, harea, hss, hend⟩
    cases ss with
    | nil =>
        rcases hend with ⟨rest', rfl⟩ | ⟨k, hk, -⟩
        · exact absurd (append_cons_inj (t := []) hs.2 List.not_mem_nil harea).1
            hs.1
        · cases hk
    | cons t ss =>
        rw [flat_cons, List.append_assoc, List.cons_append] at harea
        obtain ⟨-, rfl⟩ := append_cons_inj hs.2 (hss t List.mem_cons_self).2
          harea
        rcases hend with hempty | ⟨k, hk, hctrlc⟩
        · exact Or.inr ⟨ss, tail, rfl,
            fun u hu => hss u (List.mem_cons_of_mem t hu), Or.inl hempty⟩
        · cases k with
          | zero => exact Or.inl hctrlc
          | succ k =>
              refine Or.inr ⟨ss, tail, rfl,
                fun u hu => hss u (List.mem_cons_of_mem t hu),
                Or.inr ⟨k, Nat.succ.inj hk, ?_⟩⟩
              rwa [Nat.add_assoc, Nat.add_comm 1]
  · rintro (hctrlc | ⟨ss, tail, rfl, hss, hend⟩)
    · exact ⟨[s], rest, by simp [flat_cons],
        fun u hu => List.mem_singleton.mp hu ▸ hs, Or.inr ⟨0, rfl, hctrlc⟩⟩
    · refine ⟨s :: ss, tail, by simp [flat_cons], ?_, ?_⟩
      · intro u hu
        rcases List.mem_cons.mp hu with rfl | hu
        · exact hs
        · exact hss u hu
      · rcases hend with hempty | ⟨k, hk, hctrlc⟩
        · exact Or.inl hempty
        · refine Or.inr ⟨k + 1, by rw [List.length_cons, hk], ?_⟩
          rwa [Nat.add_assoc, Nat.add_comm 1] at hctrlc

theorem printAll_cons {c : UInt8} (hc : c ≠ 0) :
    printAll area ctrlc count i (c :: left) =
      match findEnd none (c :: left) i with
      | none => none
      | some none => some []
      | some (some (nxt, rest)) =>
          match readUpTo area i nxt with
          | none => none
          | some string =>
              if ctrlc count then some [string]
              else (printAll area ctrlc (count + 1) (nxt + 1) rest).map
                (string :: ·) := by
  rw [printAll, if_neg hc]
  split
  · rename_i heq
    rw [heq]
  · rename_i heq
    rw [heq]
  · rename_i heq
    exact heq ▸ rfl

theorem printAll_isSome_iff (hlen : i + left.length = area.length) :
    (printAll area ctrlc count i left).isSome ↔ Listed ctrlc count left := by
  induction hn : left.length using Nat.strongRecOn
    generalizing count i left with
  | ind n ih =>
      by_cases hzero : (0 : UInt8) ∈ left
      · obtain ⟨s, rest, rfl, hs⟩ := List.eq_append_cons_of_mem hzero
        rw [List.length_append, List.length_cons] at hlen hn
        cases s with
        | nil =>
            rw [List.nil_append, printAll, if_pos rfl]
            exact iff_of_true rfl ⟨[], _, rfl, by simp, Or.inl ⟨rest, rfl⟩⟩
        | cons c s =>
            have hc : c ≠ 0 := by
              rintro rfl
              exact hs List.mem_cons_self
            have hend := @findEnd_eq (c :: s) rest none i
              (fun bound hb => by cases hb) hs
            obtain ⟨string, hstring⟩ := Option.isSome_iff_exists.mp
              (@readUpTo_isSome area i (i + (c :: s).length) (by omega))
            rw [listed_string ⟨List.cons_ne_nil c s, hs⟩, List.cons_append,
              printAll_cons hc, ← List.cons_append, hend]
            dsimp only
            rw [hstring]
            dsimp only
            by_cases hctrlc : ctrlc count = true
            · rw [if_pos hctrlc]
              exact iff_of_true rfl (Or.inl hctrlc)
            · rw [if_neg hctrlc, or_iff_right hctrlc, Option.isSome_map,
                ih rest.length (by omega) (by omega) rfl]
      · have hnone : printAll area ctrlc count i left = none := by
          cases left with
          | nil => rw [printAll]
          | cons c left =>
              have hc : c ≠ 0 := by
                rintro rfl
                exact hzero List.mem_cons_self
              rw [printAll_cons hc,
                findEnd_eq_none (fun bound hb => by cases hb) hzero]
        refine iff_of_false (by rw [hnone]; simp) ?_
        rintro ⟨ss, tail, rfl, hss, hend⟩
        cases ss with
        | nil =>
            rcases hend with ⟨rest, rfl⟩ | ⟨k, hk, -⟩
            · exact hzero (by simp)
            · cases hk
        | cons s ss => exact hzero (by simp [flat_cons])

end PrintAll

/-! ## The contract -/

section Functions

variable (area : List UInt8) (name : Memory UInt8)

theorem getenvArea_isSome_iff :
    (getenvArea area name).isSome ↔ Ends name (fun _ => True) area := by
  rw [← @scan_iff name (fun _ => True) area (some area.length) 0
    (fun bound hb => by obtain rfl := Option.some.inj hb; omega), getenvArea,
    Option.isSome_map, Option.isSome_iff_exists]
  simp

theorem getenvRArea_isSome_iff (len : ℕ) :
    (getenvRArea area name len).isSome ↔ Ends name (CopyEnds len) area := by
  rw [← @scan_iff name (CopyEnds len) area (some area.length) 0
    (fun bound hb => by obtain rfl := Option.some.inj hb; omega), getenvRArea]
  cases scan (some area.length) name area 0 with
  | none => simp
  | some found =>
      cases found with
      | none => simp
      | some found => simp [copyBytes_isSome_iff]

theorem printOne_isSome_iff :
    (printOne area name).isSome ↔ Ends name (fun _ => True) area := by
  rw [← @scan_iff name (fun _ => True) area none 0 (fun bound hb => by cases hb),
    printOne]
  cases hscan : scan none name area 0 with
  | none => simp
  | some found =>
      cases found with
      | none => simp
      | some found =>
          have hlt := scan_nxt_lt (fun bound hb => by cases hb) hscan
          simpa using readUpTo_isSome (by omega)

theorem doPrintenv_isSome_iff (names : List (Memory UInt8))
    (ctrlc : ℕ → Bool) :
    (doPrintenv area names ctrlc).isSome ↔
      if names = [] then Listed ctrlc 0 area
      else ∀ name ∈ names, Ends name (fun _ => True) area := by
  unfold doPrintenv
  split
  · rw [Option.isSome_map, printAll_isSome_iff (Nat.zero_add _)]
  · simp only [mapM_isSome_iff, printOne_isSome_iff]

/-- `getenv`, `getenv_r` and `printenv` return and have read bytes of the area
only. -/
def ReadsWithin (len : ℕ) (names : List (Memory UInt8)) (ctrlc : ℕ → Bool) :
    Prop :=
  (getenvArea area name).isSome ∧ (getenvRArea area name len).isSome ∧
    (doPrintenv area names ctrlc).isSome

/-- The functions stay within the area exactly if the area ends for each of the
names that they look for, and if it is listed when all variables are printed. -/
theorem readsWithin_iff (len : ℕ) (names : List (Memory UInt8))
    (ctrlc : ℕ → Bool) :
    ReadsWithin area name len names ctrlc ↔
      Ends name (CopyEnds len) area ∧
        if names = [] then Listed ctrlc 0 area
        else ∀ name ∈ names, Ends name (fun _ => True) area := by
  unfold ReadsWithin
  rw [getenvArea_isSome_iff, getenvRArea_isSome_iff, doPrintenv_isSome_iff]
  have hends : Ends name (CopyEnds len) area → Ends name (fun _ => True) area := by
    rintro ⟨ss, tail, harea, hpasses, hend⟩
    refine ⟨ss, tail, harea, hpasses, hend.imp_right ?_⟩
    rintro ⟨s, rest, value, htail, hs, hvalue, -⟩
    exact ⟨s, rest, value, htail, hs, hvalue, trivial⟩
  exact ⟨fun h => h.2, fun h => ⟨hends h.1, h⟩⟩

end Functions

/-- An area that has never been formatted, without a terminator. -/
theorem not_readsWithin :
    ¬ ReadsWithin (List.replicate 0x20000 (ch 'a')) (Memory.ofList 0 (text "bootdelay"))
      1 [] fun _ => false := by
  have hnone : (0 : UInt8) ∉ List.replicate 0x20000 (ch 'a') := fun hzero =>
    absurd (List.eq_of_mem_replicate hzero) (by decide)
  rintro ⟨hgetenv, -⟩
  rw [getenvArea_isSome_iff] at hgetenv
  rcases hgetenv.cases with ⟨rest, harea⟩ | ⟨s, rest, harea, -⟩
  · exact hnone (harea ▸ List.mem_cons_self)
  · exact hnone (harea ▸ by simp)

end TateFirmware.Env
