import RabbitmqLite.Atomic.Program

/-! # Interleaved programs

Any number of programs run against one state. A schedule starts programs and
lets a chosen one make its next call; the calls of different programs may come
in any order. If all programs keep to a discipline, so does every schedule.
-/

namespace RabbitmqLite.Atomic

inductive Action (Op : Type) where
  | start (op : Op)
  | step (i : ℕ)

/-- Let the i-th program make a number of calls. -/
def Action.steps {Op : Type} (i n : ℕ) : List (Action Op) := List.replicate n (.step i)

/-- Start a program, which will be the i-th, and let it make a number of calls. -/
def Action.begin {Op : Type} (op : Op) (i n : ℕ) : List (Action Op) := .start op :: steps i n

/-- The state, what is left of the programs, and all calls made so far with their replies. -/
structure Config (σ Call : Type) (Reply : Call → Type) where
  state : σ
  threads : List (Prog Call Reply Unit)
  events : List (Event Call Reply)

namespace Config
variable {σ Call Op : Type} {Reply : Call → Type} (exec : (c : Call) → σ → Reply c × σ)
  (program : Op → Prog Call Reply Unit)

def init (w : σ) : Config σ Call Reply := ⟨w, [], []⟩

def act (x : Config σ Call Reply) : Action Op → Config σ Call Reply
  | .start op => { x with threads := x.threads ++ [program op] }
  | .step i =>
    match x.threads[i]? with
    | some (.call c next) =>
      { state := (exec c x.state).2
        threads := x.threads.set i (next (exec c x.state).1)
        events := x.events ++ [⟨c, (exec c x.state).1⟩] }
    | _ => x

def after (x : Config σ Call Reply) (schedule : List (Action Op)) : Config σ Call Reply :=
  schedule.foldl (act exec program) x

/-- A step makes the next call of the chosen program, or nothing happens. -/
theorem act_step (x : Config σ Call Reply) (i : ℕ) :
    x.act exec program (.step i) = x ∨ ∃ c next, x.threads[i]? = some (.call c next) ∧
      x.act exec program (.step i) =
        { state := (exec c x.state).2
          threads := x.threads.set i (next (exec c x.state).1)
          events := x.events ++ [⟨c, (exec c x.state).1⟩] } := by
  simp only [act]
  split
  · rename_i c next hi
    exact Or.inr ⟨c, next, hi, rfl⟩
  · exact Or.inl rfl

/-- The next call of this action, if it makes one, meets the condition. -/
def Meets (cond : σ → Call → Prop) (x : Config σ Call Reply) : Action Op → Prop
  | .start _ => True
  | .step i =>
    match x.threads[i]? with
    | some (.call c _) => cond x.state c
    | _ => True

instance (cond : σ → Call → Prop) [∀ w c, Decidable (cond w c)] (x : Config σ Call Reply)
    (a : Action Op) : Decidable (x.Meets cond a) := by
  unfold Meets
  split
  · infer_instance
  · split <;> infer_instance

/-- Every call of the schedule meets the condition in the state it is made in. -/
def AllMeet (cond : σ → Call → Prop) : Config σ Call Reply → List (Action Op) → Prop
  | _, [] => True
  | x, a :: schedule => x.Meets cond a ∧ AllMeet cond (x.act exec program a) schedule

instance decidableAllMeet (cond : σ → Call → Prop) [∀ w c, Decidable (cond w c)] :
    (x : Config σ Call Reply) → (schedule : List (Action Op)) →
      Decidable (AllMeet exec program cond x schedule)
  | _, [] => .isTrue trivial
  | x, a :: schedule =>
    have := decidableAllMeet cond (x.act exec program a) schedule
    inferInstanceAs (Decidable (_ ∧ _))

variable {exec program}

theorem meets_true (x : Config σ Call Reply) (a : Action Op) : x.Meets (fun _ _ => True) a := by
  cases a with
  | start op => trivial
  | step i =>
    simp only [Meets]
    split <;> trivial

theorem allMeet_true (schedule : List (Action Op)) (x : Config σ Call Reply) :
    AllMeet exec program (fun _ _ => True) x schedule := by
  induction schedule generalizing x with
  | nil => trivial
  | cons a schedule ih => exact ⟨x.meets_true a, ih _⟩

variable (D : Discipline exec)

/-- The state meets the invariant and every program keeps to the discipline from here on. -/
structure Disciplined (x : Config σ Call Reply) : Prop where
  inv : D.inv x.state
  safe : ∀ p ∈ x.threads, p.Safe D (fun _ _ => True) x.state

theorem init_disciplined {w : σ} (h : D.inv w) :
    (init w : Config σ Call Reply).Disciplined D where
  inv := h
  safe := fun _ hp => absurd hp List.not_mem_nil

variable {D}

theorem Disciplined.start {x : Config σ Call Reply} (h : x.Disciplined D) {op : Op}
    (hp : (program op).Safe D (fun _ _ => True) x.state) :
    (x.act exec program (.start op)).Disciplined D where
  inv := h.inv
  safe := by
    intro p hm
    rcases List.mem_append.mp hm with hm | hm
    · exact h.safe p hm
    · rw [List.mem_singleton.mp hm]
      exact hp

variable (program) in
/-- What one step of one program does: an allowed call, after which all programs go on. -/
theorem Disciplined.step {x : Config σ Call Reply} (h : x.Disciplined D) {i : ℕ} {c : Call}
    {next : Reply c → Prog Call Reply Unit} (hi : x.threads[i]? = some (.call c next)) :
    D.allowed x.state c ∧
      (x.act exec program (.step i)).Disciplined D ∧
      (x.act exec program (.step i)).state = (exec c x.state).2 ∧
      (x.act exec program (.step i)).events = x.events ++ [⟨c, (exec c x.state).1⟩] := by
  have hmem : .call c next ∈ x.threads := List.mem_of_getElem? hi
  obtain ⟨hc, hnext⟩ := h.safe _ hmem x.state (D.refl x.state) h.inv
  obtain ⟨hinv, hlater⟩ := D.keeps x.state c h.inv hc
  have hact : x.act exec program (.step i) =
      { state := (exec c x.state).2
        threads := x.threads.set i (next (exec c x.state).1)
        events := x.events ++ [⟨c, (exec c x.state).1⟩] } := by
    simp only [act, hi]
  rw [hact]
  refine ⟨hc, ⟨hinv, fun p hp => ?_⟩, rfl, rfl⟩
  rcases List.mem_or_eq_of_mem_set hp with hp | rfl
  · exact (h.safe p hp).of_later D hlater
  · exact hnext

/-- The rule for schedules: a property of the state and the calls so far that every
allowed call meeting the condition keeps, holds after every schedule of such calls. -/
theorem after_rule {started : Op → Prop} {cond : σ → Call → Prop}
    {P : σ → List (Event Call Reply) → Prop}
    (hprogram : ∀ op, started op → ∀ w, D.inv w → (program op).Safe D (fun _ _ => True) w)
    (hstep : ∀ w es c, D.inv w → D.allowed w c → cond w c → P w es →
      P (exec c w).2 (es ++ [⟨c, (exec c w).1⟩]))
    (schedule : List (Action Op)) (x : Config σ Call Reply) (hx : x.Disciplined D)
    (hs : ∀ op, .start op ∈ schedule → started op) (hc : AllMeet exec program cond x schedule)
    (hP : P x.state x.events) :
    (x.after exec program schedule).Disciplined D ∧
      P (x.after exec program schedule).state (x.after exec program schedule).events := by
  induction schedule generalizing x with
  | nil => exact ⟨hx, hP⟩
  | cons a schedule ih =>
    obtain ⟨hmeets, hrest⟩ := hc
    have hs' : ∀ op, .start op ∈ schedule → started op :=
      fun op hm => hs op (List.mem_cons_of_mem a hm)
    suffices h : (x.act exec program a).Disciplined D ∧
        P (x.act exec program a).state (x.act exec program a).events from
      ih (x.act exec program a) h.1 hs' hrest h.2
    cases a with
    | start op => exact ⟨hx.start (hprogram op (hs op List.mem_cons_self) x.state hx.inv), hP⟩
    | step i =>
      rcases act_step exec program x i with hact | ⟨c, next, hi, -⟩
      · rw [hact]
        exact ⟨hx, hP⟩
      · simp only [Meets, hi] at hmeets
        obtain ⟨hallowed, hdisc, hstate, hevents⟩ := hx.step program hi
        rw [hstate, hevents]
        exact ⟨hdisc, hstep x.state x.events c hx.inv hallowed hmeets hP⟩

end Config
end RabbitmqLite.Atomic
