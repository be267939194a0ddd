import Mathlib.Algebra.Order.Ring.Nat
import Mathlib.Data.List.Basic
import Mathlib.Data.List.TakeDrop

/-!
# Records that announce their length

A record is a byte that announces its length, and a body.  A chain of records may be
cut to a number of bytes by announcing for each record the length it is cut to.  The
bytes are then those of the whole chain only if no record is cut in two.
-/

namespace TateFirmware.Support

/-- A record that announces `n` bytes. -/
def announce (n : ℕ) (body : List UInt8) : List UInt8 := UInt8.ofNat n :: body

/-- The length of a record. -/
def recordLength (body : List UInt8) : ℕ := body.length + 1

/-- A record that announces its length. -/
def wholeRecord (body : List UInt8) : List UInt8 := announce (recordLength body) body

/-- A record cut to at most `n` bytes, which announces what is left of it. -/
def cutRecord (n : ℕ) (body : List UInt8) : List UInt8 :=
  (announce (min n (recordLength body)) body).take (min n (recordLength body))

/-- A chain of records. -/
def wholeChain (bodies : List (List UInt8)) : List UInt8 :=
  (bodies.map wholeRecord).flatten

/-- A chain of records cut to at most `n` bytes. -/
def cutChain : List (List UInt8) → ℕ → List UInt8
  | [], _ => []
  | body :: bodies, n =>
      cutRecord n body ++ cutChain bodies (n - min n (recordLength body))

/-- After `n` bytes a record of the chain or the whole chain ends. -/
def Boundary : List (List UInt8) → ℕ → Prop
  | [], _ => True
  | body :: bodies, n =>
      n = 0 ∨ recordLength body ≤ n ∧ Boundary bodies (n - recordLength body)

instance decidableBoundary :
    ∀ (bodies : List (List UInt8)) (n : ℕ), Decidable (Boundary bodies n)
  | [], _ => inferInstanceAs (Decidable True)
  | _ :: bodies, _ =>
      have := decidableBoundary bodies
      inferInstanceAs (Decidable (_ ∨ _ ∧ _))

@[simp] theorem announce_length (n : ℕ) (body : List UInt8) :
    (announce n body).length = recordLength body := rfl

@[simp] theorem wholeRecord_length (body : List UInt8) :
    (wholeRecord body).length = recordLength body := rfl

@[simp] theorem cutRecord_length (n : ℕ) (body : List UInt8) :
    (cutRecord n body).length = min n (recordLength body) := by
  rw [cutRecord, List.length_take, announce_length]
  omega

theorem cutRecord_of_le {n : ℕ} {body : List UInt8} (h : recordLength body ≤ n) :
    cutRecord n body = wholeRecord body := by
  rw [cutRecord, Nat.min_eq_right h, wholeRecord]
  exact List.take_of_length_le (Nat.le_of_eq (announce_length _ _))

@[simp] theorem wholeChain_nil : wholeChain [] = [] := rfl

@[simp] theorem wholeChain_cons (body : List UInt8) (bodies : List (List UInt8)) :
    wholeChain (body :: bodies) = wholeRecord body ++ wholeChain bodies := rfl

/-- A cut chain has the length it is cut to. -/
theorem cutChain_length (bodies : List (List UInt8)) (n : ℕ) :
    (cutChain bodies n).length = min n (wholeChain bodies).length := by
  induction bodies generalizing n with
  | nil => simp [cutChain]
  | cons body bodies ih =>
      rw [cutChain, List.length_append, cutRecord_length, ih, wholeChain_cons,
        List.length_append, wholeRecord_length]
      omega

@[simp] theorem cutChain_zero (bodies : List (List UInt8)) : cutChain bodies 0 = [] :=
  List.eq_nil_of_length_eq_zero (by rw [cutChain_length, Nat.zero_min])

/-- A record cut in two announces less than it should. -/
theorem cutRecord_ne {n : ℕ} {body : List UInt8} (hpos : 0 < n)
    (hlt : n < recordLength body) (hbyte : recordLength body < 256) :
    cutRecord n body ≠ (wholeRecord body).take n := by
  obtain ⟨k, rfl⟩ := Nat.exists_eq_succ_of_ne_zero (Nat.ne_of_gt hpos)
  intro h
  rw [cutRecord, Nat.min_eq_left (Nat.le_of_lt hlt)] at h
  simp only [announce, wholeRecord, List.take_succ_cons, List.cons.injEq] at h
  have hnat := congrArg UInt8.toNat h.1
  rw [UInt8.toNat_ofNat', UInt8.toNat_ofNat'] at hnat
  omega

/-- A cut chain consists of the first bytes of the whole chain exactly if it is cut
behind a record. -/
theorem cutChain_eq_take_iff {bodies : List (List UInt8)}
    (hbyte : ∀ body ∈ bodies, recordLength body < 256) (n : ℕ) :
    cutChain bodies n = (wholeChain bodies).take n ↔ Boundary bodies n := by
  induction bodies generalizing n with
  | nil => simp [cutChain, Boundary]
  | cons body bodies ih =>
      have hrest := ih fun b hb => hbyte b (List.mem_cons_of_mem _ hb)
      rw [wholeChain_cons, Boundary]
      rcases Nat.lt_or_ge n (recordLength body) with hlt | hge
      · rcases Nat.eq_zero_or_pos n with rfl | hpos
        · simp
        · refine iff_of_false ?_ (by omega)
          have hend : n - min n (recordLength body) = 0 := by omega
          rw [cutChain, hend, cutChain_zero, List.append_nil,
            List.take_append_of_le_length (by rw [wholeRecord_length]; omega)]
          exact cutRecord_ne hpos hlt (hbyte body List.mem_cons_self)
      · have hpos : n ≠ 0 := by
          have : 0 < recordLength body := Nat.succ_pos _
          omega
        rw [cutChain, cutRecord_of_le hge, Nat.min_eq_right hge, List.take_append,
          wholeRecord_length,
          List.take_of_length_le (by rw [wholeRecord_length]; exact hge),
          List.append_cancel_left_eq, hrest]
        simp [hpos, hge]

end TateFirmware.Support
