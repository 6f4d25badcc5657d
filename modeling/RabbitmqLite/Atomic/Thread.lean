import RabbitmqLite.Atomic.Contract

/-! # Programs that remember their past

A thread is a program on its way: the calls it has made, with their replies,
and what is left of it. Where it has got to in its contract is a matter of its
past.
-/

namespace RabbitmqLite.Atomic
variable {σ Call : Type} {Reply : Call → Type}

structure Thread (Call : Type) (Reply : Call → Type) where
  past : List (Event Call Reply)
  rest : Prog Call Reply Unit

namespace Thread

def start (p : Prog Call Reply Unit) : Thread Call Reply := ⟨[], p⟩

/-- The next call of a thread, if it has one. -/
def step (exec : (c : Call) → σ → Reply c × σ) (t : Thread Call Reply) (w : σ) :
    Thread Call Reply × σ :=
  match t.rest with
  | .ret _ => (t, w)
  | .call c next => (⟨t.past ++ [⟨c, (exec c w).1⟩], next (exec c w).1⟩, (exec c w).2)

def next? (t : Thread Call Reply) : Option Call :=
  match t.rest with
  | .ret _ => none
  | .call c _ => some c

def finished (t : Thread Call Reply) : Bool :=
  match t.rest with
  | .ret _ => true
  | .call _ _ => false

/-- Whatever the replies are, the rest of the thread makes allowed calls only, and `post`
holds of its past in the end. -/
def Keeps (allows : List (Event Call Reply) → Call → Prop) (post : List (Event Call Reply) → Prop)
    (t : Thread Call Reply) : Prop :=
  t.rest.Obeys allows t.past (fun _ past => post past)

variable {exec : (c : Call) → σ → Reply c × σ} {allows : List (Event Call Reply) → Call → Prop}
  {post : List (Event Call Reply) → Prop} {t : Thread Call Reply}

theorem Keeps.of_finished (h : t.Keeps allows post) (hf : t.finished = true) : post t.past := by
  rcases t with ⟨past, _ | _⟩
  · exact h
  · cases hf

/-- A thread under a contract has returned, or it makes an allowed call and keeps to the
contract. -/
theorem Keeps.step_cases (h : t.Keeps allows post) (exec : (c : Call) → σ → Reply c × σ) (w : σ) :
    t.finished = true ∧ t.step exec w = (t, w) ∨
      ∃ c, t.next? = some c ∧ allows t.past c ∧
        (t.step exec w).1.past = t.past ++ [⟨c, (exec c w).1⟩] ∧
        (t.step exec w).2 = (exec c w).2 ∧ (t.step exec w).1.Keeps allows post := by
  rcases t with ⟨past, u | ⟨c, next⟩⟩
  · exact Or.inl ⟨rfl, rfl⟩
  · exact Or.inr ⟨c, rfl, h.1, rfl, rfl, h.2 (exec c w).1⟩

end Thread
end RabbitmqLite.Atomic
