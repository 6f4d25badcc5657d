import Mathlib.Data.List.Lex
import Mathlib.Tactic

/-! # Numbers of a fixed width in any base

The last digits of a number determine it up to the power of the base, and lists
of digits compare like the numbers, from the left. Digits that are written as
characters or bytes compare in the same way, as long as single digits do.
-/

namespace RabbitmqLite.Text

section Lexicographic

variable {α β : Type*} [LT α] [LT β]

theorem append_lt_append_iff {a b : List α} (h : a.length = b.length) (c d : List α) :
    a ++ c < b ++ d ↔ a < b ∨ a = b ∧ c < d := by
  induction a generalizing b with
  | nil =>
    obtain rfl := List.length_eq_zero_iff.mp h.symm
    simp
  | cons x a ih =>
    cases b with
    | nil => simp at h
    | cons y b =>
      have hl : a.length = b.length := by simpa using h
      simp only [List.cons_append, List.cons_lt_cons_iff, ih hl, List.cons.injEq]
      tauto

/-- A function that keeps the order of single elements keeps the order of lists. -/
theorem map_lt_map_iff {f : α → β} {p : α → Prop}
    (hlt : ∀ a b, p a → p b → (f a < f b ↔ a < b))
    (heq : ∀ a b, p a → p b → (f a = f b ↔ a = b)) {l m : List α}
    (hl : ∀ a ∈ l, p a) (hm : ∀ a ∈ m, p a) : l.map f < m.map f ↔ l < m := by
  induction l generalizing m with
  | nil => cases m <;> simp
  | cons a l ih =>
    cases m with
    | nil => simp
    | cons b m =>
      rw [List.forall_mem_cons] at hl hm
      simp only [List.map_cons, List.cons_lt_cons_iff, hlt a b hl.1 hm.1, heq a b hl.1 hm.1,
        ih hl.2 hm.2]

end Lexicographic

/-! ## Digits -/

/-- The last `w` digits of a number in base `b`, the highest first. -/
def positional (b : ℕ) : ℕ → ℕ → List ℕ
  | 0, _ => []
  | w + 1, n => n / b ^ w % b :: positional b w n

/-- Read digits behind a number already read. -/
def ofPositional (b : ℕ) : ℕ → List ℕ → ℕ :=
  List.foldl (fun n d => n * b + d)

@[simp] theorem positional_length (b w n : ℕ) : (positional b w n).length = w := by
  induction w with
  | zero => rfl
  | succ w ih => simp [positional, ih]

theorem positional_lt {b : ℕ} (hb : 0 < b) (w n : ℕ) : ∀ d ∈ positional b w n, d < b := by
  induction w with
  | zero => simp [positional]
  | succ w ih =>
    rw [positional, List.forall_mem_cons]
    exact ⟨Nat.mod_lt _ hb, ih⟩

theorem mod_pow_succ (b w n : ℕ) :
    n % b ^ (w + 1) = n / b ^ w % b * b ^ w + n % b ^ w := by
  rw [Nat.pow_succ, Nat.mod_mul]
  ring

theorem ofPositional_positional (b w n m : ℕ) :
    ofPositional b m (positional b w n) = m * b ^ w + n % b ^ w := by
  induction w generalizing m with
  | zero => simp [ofPositional, positional, Nat.mod_one]
  | succ w ih =>
    rw [ofPositional, positional, List.foldl_cons, ← ofPositional, ih, mod_pow_succ]
    ring

theorem mul_add_lt_mul_add {a b x y k : ℕ} (hx : x < k) (hy : y < k) :
    a * k + x < b * k + y ↔ a < b ∨ a = b ∧ x < y := by
  rcases lt_trichotomy a b with hab | rfl | hab
  · have hk : (a + 1) * k ≤ b * k := Nat.mul_le_mul_right k hab
    simp only [hab, true_or, iff_true]
    linarith
  · simp
  · have hk : (b + 1) * k ≤ a * k := Nat.mul_le_mul_right k hab
    have hne : ¬ (a < b ∨ a = b ∧ x < y) := by omega
    simp only [hne, iff_false, not_lt]
    linarith

theorem positional_lt_positional {b : ℕ} (hb : 0 < b) (w m n : ℕ) :
    positional b w m < positional b w n ↔ m % b ^ w < n % b ^ w := by
  induction w with
  | zero => simp [positional, Nat.mod_one]
  | succ w ih =>
    have hm : m % b ^ w < b ^ w := Nat.mod_lt m (by positivity)
    have hn : n % b ^ w < b ^ w := Nat.mod_lt n (by positivity)
    rw [mod_pow_succ, mod_pow_succ, mul_add_lt_mul_add hm hn]
    simp only [positional, List.cons_lt_cons_iff, ih]

end RabbitmqLite.Text
