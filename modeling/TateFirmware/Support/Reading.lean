import TateFirmware.Support.Fuel
import TateFirmware.Support.Memory

/-!
# Computations that read bytes

A `Reading` is what has become of a computation over a memory: the offsets it
has read, and its value if it has returned.  `Reading.Within n` bounds the
offsets; it is taken apart along the computation.

A loop of the source is a `Reading` for each number of rounds, with `running`
when the rounds are used up.  `Completes` says that it returns with enough rounds
and reads below a bound with any number of them.
-/

namespace TateFirmware.Support

universe u

variable {α β : Type u}

/-- The offsets read so far, and the value of a computation that has returned. -/
structure Reading (α : Type u) where
  offsets : List ℕ
  value : Option α
deriving DecidableEq

namespace Reading

/-- A computation that has not returned. -/
def running : Reading α := ⟨[], none⟩

/-- Read the byte at an offset. -/
def byte (m : Memory α) (i : ℕ) : Reading α := ⟨[i], some (m i)⟩

/-- Read so many bytes from an offset on. -/
def bytes (m : Memory α) (p n : ℕ) : Reading (List α) :=
  ⟨(List.range n).map (p + ·), some (m.read p n)⟩

instance : Monad Reading where
  pure a := ⟨[], some a⟩
  bind x f :=
    match x.value with
    | none => ⟨x.offsets, none⟩
    | some a => ⟨x.offsets ++ (f a).offsets, (f a).value⟩

theorem pure_def (a : α) : (pure a : Reading α) = ⟨[], some a⟩ := rfl

theorem bind_of_some {x : Reading α} {a : α} (h : x.value = some a)
    (f : α → Reading β) :
    x >>= f = ⟨x.offsets ++ (f a).offsets, (f a).value⟩ := by
  change (match x.value with
    | none => (⟨x.offsets, none⟩ : Reading β)
    | some a => ⟨x.offsets ++ (f a).offsets, (f a).value⟩) = _
  rw [h]

theorem bind_of_none {x : Reading α} (h : x.value = none) (f : α → Reading β) :
    x >>= f = ⟨x.offsets, none⟩ := by
  change (match x.value with
    | none => (⟨x.offsets, none⟩ : Reading β)
    | some a => ⟨x.offsets ++ (f a).offsets, (f a).value⟩) = _
  rw [h]

@[simp] theorem value_pure (a : α) : (pure a : Reading α).value = some a := rfl

@[simp] theorem value_running : (running : Reading α).value = none := rfl

@[simp] theorem value_byte (m : Memory α) (i : ℕ) :
    (byte m i).value = some (m i) := rfl

@[simp] theorem value_bytes (m : Memory α) (p n : ℕ) :
    (bytes m p n).value = some (m.read p n) := rfl

@[simp] theorem value_bind (x : Reading α) (f : α → Reading β) :
    (x >>= f).value = x.value.bind fun a => (f a).value := by
  cases h : x.value with
  | none => rw [bind_of_none h]; rfl
  | some a => rw [bind_of_some h]; rfl

/-- What follows a computation matters at its value only. -/
theorem bind_congr_value {x : Reading α} {f g : α → Reading β}
    (h : ∀ a, x.value = some a → f a = g a) : x >>= f = x >>= g := by
  cases hx : x.value with
  | none => rw [bind_of_none hx, bind_of_none hx]
  | some a => rw [bind_of_some hx, bind_of_some hx, h a hx]

/-- Only offsets below `n` are read. -/
def Within (n : ℕ) (x : Reading α) : Prop := ∀ i ∈ x.offsets, i < n

@[simp] theorem within_pure (n : ℕ) (a : α) : (pure a : Reading α).Within n :=
  fun _ hi => absurd hi List.not_mem_nil

@[simp] theorem within_running (n : ℕ) : (running : Reading α).Within n :=
  fun _ hi => absurd hi List.not_mem_nil

@[simp] theorem within_byte {n i : ℕ} (m : Memory α) :
    (byte m i).Within n ↔ i < n := by
  simp [Within, byte]

@[simp] theorem within_bytes {n p k : ℕ} (m : Memory α) :
    (bytes m p k).Within n ↔ k = 0 ∨ p + k ≤ n := by
  simp only [Within, bytes, List.mem_map, List.mem_range, forall_exists_index, and_imp]
  constructor
  · intro h
    rcases Nat.eq_zero_or_pos k with hzero | hpos
    · exact Or.inl hzero
    · have hlast := h _ (k - 1) (by omega) rfl
      omega
  · rintro h _ i hi rfl
    omega

@[simp] theorem within_bind {n : ℕ} (x : Reading α) (f : α → Reading β) :
    (x >>= f).Within n ↔
      x.Within n ∧ ∀ a, x.value = some a → (f a).Within n := by
  cases h : x.value with
  | none =>
      rw [bind_of_none h]
      exact ⟨fun hx => ⟨hx, fun _ ha => nomatch ha⟩, fun hx => hx.1⟩
  | some a =>
      rw [bind_of_some h]
      simp only [Within, List.mem_append, Option.some.injEq, forall_eq']
      constructor
      · exact fun hall =>
          ⟨fun i hi => hall i (Or.inl hi), fun i hi => hall i (Or.inr hi)⟩
      · exact fun hall i hi => hi.elim (hall.1 i) (hall.2 i)

/-! ## Rounds -/

/-- With enough rounds a computation returns `a`, and it never reads at `n` or
beyond. -/
structure Completes (f : ℕ → Reading α) (n : ℕ) (a : α) : Prop where
  returns : Returns (fun rounds => (f rounds).value) a
  within : ∀ rounds, (f rounds).Within n

theorem completes_const {x : Reading α} {n : ℕ} {a : α} :
    Completes (fun _ => x) n a ↔ x.Within n ∧ x.value = some a :=
  ⟨fun h => ⟨h.within 0, h.returns.elim fun _ hvalue => hvalue⟩,
    fun h => ⟨⟨0, h.2⟩, fun _ => h.1⟩⟩

/-- A computation without a loop, and what follows it. -/
theorem completes_bind {x : Reading α} {f : α → ℕ → Reading β} {n : ℕ} {b : β} :
    Completes (fun rounds => x >>= fun a => f a rounds) n b ↔
      x.Within n ∧ ∃ a, x.value = some a ∧ Completes (f a) n b := by
  constructor
  · rintro ⟨⟨rounds, hvalue⟩, hwithin⟩
    have hvalue' := (value_bind x fun a => f a rounds).symm.trans hvalue
    obtain ⟨a, ha, hb⟩ := Option.bind_eq_some_iff.mp hvalue'
    refine ⟨((within_bind x _).mp (hwithin 0)).1, a, ha, ⟨rounds, hb⟩, fun rounds => ?_⟩
    exact ((within_bind x _).mp (hwithin rounds)).2 a ha
  · rintro ⟨hx, a, ha, ⟨rounds, hb⟩, hwithin⟩
    refine ⟨⟨rounds, ?_⟩, fun rounds => (within_bind x _).mpr ⟨hx, fun a' ha' => ?_⟩⟩
    · exact (value_bind x _).trans (Option.bind_eq_some_iff.mpr ⟨a, ha, hb⟩)
    · obtain rfl : a = a' := Option.some.inj (ha.symm.trans ha')
      exact hwithin rounds

/-- A computation of which only the value is used. -/
theorem completes_map {f : ℕ → Reading α} {g : α → β} {n : ℕ} {b : β} :
    Completes (fun rounds => f rounds >>= fun a => pure (g a)) n b ↔
      ∃ a, Completes f n a ∧ b = g a := by
  have hvalue : ∀ rounds, (f rounds >>= fun a => (pure (g a) : Reading β)).value =
      (f rounds).value.map g := by
    intro rounds
    rw [value_bind, Option.map_eq_bind]
    rfl
  constructor
  · rintro ⟨⟨rounds, hb⟩, hwithin⟩
    obtain ⟨a, ha, rfl⟩ := Option.map_eq_some_iff.mp ((hvalue rounds).symm.trans hb)
    exact ⟨a, ⟨⟨rounds, ha⟩, fun rounds => ((within_bind _ _).mp (hwithin rounds)).1⟩,
      rfl⟩
  · rintro ⟨a, ⟨⟨rounds, ha⟩, hwithin⟩, rfl⟩
    have hmap : (f rounds).value = some a := ha
    refine ⟨⟨rounds, (hvalue rounds).trans (by rw [hmap]; rfl)⟩, fun rounds => ?_⟩
    exact (within_bind _ _).mpr ⟨hwithin rounds, fun _ _ => within_pure n _⟩

/-- A loop whose rounds end it with a result or leave the next state. -/
def loop (round : α → Reading (β ⊕ α)) : ℕ → α → Reading β
  | 0, _ => running
  | rounds + 1, s =>
      round s >>= fun
        | .inl b => pure b
        | .inr s => loop round rounds s

theorem value_loop_succ (round : α → Reading (β ⊕ α)) (rounds : ℕ) (s : α) :
    (loop round (rounds + 1) s).value =
      (round s).value.bind (Sum.elim some fun s' => (loop round rounds s').value) := by
  rw [loop, value_bind]
  congr 1
  funext next
  cases next <;> rfl

/-- A loop completes if its round does and ends it, or leaves a state from which it
completes. -/
theorem completes_loop {round : α → Reading (β ⊕ α)} {s : α} {n : ℕ} {b : β} :
    Completes (fun rounds => loop round rounds s) n b ↔
      (round s).Within n ∧ ((round s).value = some (.inl b) ∨
        ∃ s', (round s).value = some (.inr s') ∧
          Completes (fun rounds => loop round rounds s') n b) := by
  let rest : β ⊕ α → ℕ → Reading β := fun next rounds =>
    match next with
    | .inl b => pure b
    | .inr s => loop round rounds s
  have hsucc : Completes (fun rounds => loop round rounds s) n b ↔
      Completes (fun rounds => round s >>= fun next => rest next rounds) n b := by
    constructor
    · rintro ⟨hreturns, hwithin⟩
      exact ⟨(returns_of_succ rfl fun _ => rfl).mp hreturns,
        fun rounds => hwithin (rounds + 1)⟩
    · rintro ⟨hreturns, hwithin⟩
      refine ⟨(returns_of_succ rfl fun _ => rfl).mpr hreturns, fun rounds => ?_⟩
      cases rounds with
      | zero => exact within_running n
      | succ rounds => exact hwithin rounds
  rw [hsucc, completes_bind]
  refine and_congr_right fun _ => ?_
  constructor
  · rintro ⟨next, hnext, hrest⟩
    cases next with
    | inl c =>
        obtain rfl : c = b := Option.some.inj (completes_const.mp hrest).2
        exact Or.inl hnext
    | inr s' => exact Or.inr ⟨s', hnext, hrest⟩
  · rintro (hend | ⟨s', hnext, hrest⟩)
    · exact ⟨.inl b, hend, completes_const.mpr ⟨within_pure n b, rfl⟩⟩
    · exact ⟨.inr s', hnext, hrest⟩

/-- What each round keeps holds when the loop ends. -/
theorem Completes.loop_inv {round : α → Reading (β ⊕ α)} {inv : α → Prop}
    {post : β → Prop}
    (hround : ∀ s next, inv s → (round s).value = some next → Sum.elim post inv next)
    {s : α} {n : ℕ} {b : β} (hs : inv s)
    (h : Completes (fun rounds => loop round rounds s) n b) : post b := by
  obtain ⟨rounds, hvalue⟩ := h.returns
  clear h
  induction rounds generalizing s with
  | zero => cases hvalue
  | succ rounds ih =>
      obtain ⟨next, hnext, hrest⟩ :=
        Option.bind_eq_some_iff.mp ((value_loop_succ round rounds s).symm.trans hvalue)
      have hkept := hround s next hs hnext
      cases next with
      | inl c =>
          obtain rfl : c = b := Option.some.inj hrest
          exact hkept
      | inr s' => exact ih hkept hrest

end Reading

end TateFirmware.Support
