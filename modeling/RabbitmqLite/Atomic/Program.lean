import RabbitmqLite.Atomic.Machine

/-! # Programs over atomic calls

A program is a tree: it returns, or it makes one call of a machine and goes on
with the reply. Run alone it is a function of the state. Run among others it
may find a different state at each of its calls; a discipline says along which
relation the others may have moved the state and which calls keep to it.
-/

namespace RabbitmqLite.Atomic

inductive Prog (Call : Type) (Reply : Call → Type) (α : Type) where
  | ret (a : α)
  | call (c : Call) (next : Reply c → Prog Call Reply α)

namespace Prog
variable {σ Call α β : Type} {Reply : Call → Type}

def bind : Prog Call Reply α → (α → Prog Call Reply β) → Prog Call Reply β
  | .ret a, f => f a
  | .call c next, f => .call c (fun r => (next r).bind f)

instance : Monad (Prog Call Reply) where
  pure := .ret
  bind := bind

/-- The program that makes one call and returns its reply. -/
def perform (c : Call) : Prog Call Reply (Reply c) := .call c .ret

/-- Forget the result. -/
def void (p : Prog Call Reply α) : Prog Call Reply Unit := p.bind (fun _ => .ret ())

/-- Run a program alone. -/
def run (exec : (c : Call) → σ → Reply c × σ) : Prog Call Reply α → σ → α × σ
  | .ret a, w => (a, w)
  | .call c next, w => (next (exec c w).1).run exec (exec c w).2

variable (exec : (c : Call) → σ → Reply c × σ)

@[simp] theorem run_pure (a : α) (w : σ) :
    (pure a : Prog Call Reply α).run exec w = (a, w) := rfl

@[simp] theorem run_perform (c : Call) (w : σ) :
    (perform c : Prog Call Reply (Reply c)).run exec w = exec c w := rfl

@[simp] theorem run_bind (p : Prog Call Reply α) (f : α → Prog Call Reply β) (w : σ) :
    (p >>= f).run exec w = (f (p.run exec w).1).run exec (p.run exec w).2 := by
  induction p generalizing w with
  | ret a => rfl
  | call c next ih => exact ih (exec c w).1 (exec c w).2

end Prog

/-- What the parties of a system may do to its state: every allowed call keeps the
invariant and moves the state along `later`. -/
structure Discipline {σ Call : Type} {Reply : Call → Type}
    (exec : (c : Call) → σ → Reply c × σ) where
  inv : σ → Prop
  later : σ → σ → Prop
  allowed : σ → Call → Prop
  refl : ∀ w, later w w
  trans : ∀ u v w, later u v → later v w → later u w
  keeps : ∀ w c, inv w → allowed w c → inv (exec c w).2 ∧ later w (exec c w).2

section Safe
variable {σ Call α β : Type} {Reply : Call → Type} {exec : (c : Call) → σ → Reply c × σ}
  (D : Discipline exec)

/-- Started in a state and run among disciplined parties, the program makes allowed
calls only, and `post` holds when it returns. -/
def Prog.Safe : Prog Call Reply α → (α → σ → Prop) → σ → Prop
  | .ret a, post, w => post a w
  | .call c next, post, w => ∀ w', D.later w w' → D.inv w' →
      D.allowed w' c ∧ (next (exec c w').1).Safe post (exec c w').2

@[simp] theorem Prog.safe_pure (a : α) (post : α → σ → Prop) (w : σ) :
    (pure a : Prog Call Reply α).Safe D post w ↔ post a w := Iff.rfl

@[simp] theorem Prog.safe_bind (p : Prog Call Reply α) (f : α → Prog Call Reply β)
    (post : β → σ → Prop) (w : σ) :
    (p >>= f).Safe D post w ↔ p.Safe D (fun a w => (f a).Safe D post w) w := by
  induction p generalizing w with
  | ret a => exact Iff.rfl
  | call c next ih =>
    apply forall_congr'
    intro w'
    apply forall_congr'
    intro _
    apply forall_congr'
    intro _
    exact and_congr_right (fun _ => ih (exec c w').1 (exec c w').2)

theorem Prog.Safe.mono {p : Prog Call Reply α} {post post' : α → σ → Prop} {w : σ}
    (h : p.Safe D post w) (himp : ∀ a w', post a w' → post' a w') : p.Safe D post' w := by
  induction p generalizing w with
  | ret a => exact himp a w h
  | call c next ih =>
    intro w' hl hi
    obtain ⟨ha, hn⟩ := h w' hl hi
    exact ⟨ha, ih (exec c w').1 hn⟩

/-- A program that promises nothing about its end may also be resumed later. -/
theorem Prog.Safe.of_later {p : Prog Call Reply α} {w w' : σ}
    (h : p.Safe D (fun _ _ => True) w) (hl : D.later w w') : p.Safe D (fun _ _ => True) w' := by
  cases p with
  | ret a => trivial
  | call c next => exact fun w₂ hl₂ hi₂ => h w₂ (D.trans w w' w₂ hl hl₂) hi₂

end Safe
end RabbitmqLite.Atomic
