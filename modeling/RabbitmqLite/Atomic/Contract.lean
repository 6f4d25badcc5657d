import RabbitmqLite.Atomic.Interleaving

/-! # Contracts over the past calls of a program

What a program does next depends on what it was told before. A contract says
which call is allowed after which own calls and replies, whatever the replies
are. It needs no state: an invariant of the state gives the past calls their
meaning, and what the program may do then follows from its past alone.
-/

namespace RabbitmqLite.Atomic
variable {σ Call Op α β : Type} {Reply : Call → Type}

/-- Whatever the replies are, the program makes allowed calls only, and `post` holds of its
result and of the calls it has made in the end. -/
def Prog.Obeys (allows : List (Event Call Reply) → Call → Prop) :
    Prog Call Reply α → List (Event Call Reply) → (α → List (Event Call Reply) → Prop) → Prop
  | .ret a, past, post => post a past
  | .call c next, past, post =>
    allows past c ∧ ∀ r, (next r).Obeys allows (past ++ [⟨c, r⟩]) post

section Rules
variable {allows : List (Event Call Reply) → Call → Prop} {past : List (Event Call Reply)}

theorem Prog.Obeys.perform {c : Call} {post : Reply c → List (Event Call Reply) → Prop}
    (hc : allows past c) (h : ∀ r, post r (past ++ [⟨c, r⟩])) :
    (Prog.perform c : Prog Call Reply (Reply c)).Obeys allows past post := ⟨hc, h⟩

theorem Prog.obeys_bind (p : Prog Call Reply α) (f : α → Prog Call Reply β)
    (past : List (Event Call Reply)) (post : β → List (Event Call Reply) → Prop) :
    (p >>= f).Obeys allows past post ↔
      p.Obeys allows past (fun a past => (f a).Obeys allows past post) := by
  induction p generalizing past with
  | ret a => exact Iff.rfl
  | call c next ih => exact and_congr_right (fun _ => forall_congr' (fun r => ih r _))

theorem Prog.Obeys.mono {p : Prog Call Reply α} {post post' : α → List (Event Call Reply) → Prop}
    (h : p.Obeys allows past post) (himp : ∀ a past, post a past → post' a past) :
    p.Obeys allows past post' := by
  induction p generalizing past with
  | ret a => exact himp a past h
  | call c next ih => exact ⟨h.1, fun r => ih r (h.2 r)⟩

theorem Prog.Obeys.bind {p : Prog Call Reply α} {f : α → Prog Call Reply β}
    {mid : α → List (Event Call Reply) → Prop} {post : β → List (Event Call Reply) → Prop}
    (hp : p.Obeys allows past mid) (hf : ∀ a past, mid a past → (f a).Obeys allows past post) :
    (p >>= f).Obeys allows past post :=
  (Prog.obeys_bind p f past post).mpr (hp.mono hf)

theorem Prog.Obeys.void {p : Prog Call Reply α} {post : α → List (Event Call Reply) → Prop}
    (h : p.Obeys allows past post) : p.void.Obeys allows past (fun _ past => ∃ a, post a past) :=
  h.bind (fun a _ ha => ⟨a, ha⟩)

/-- A weaker contract is kept as well. -/
theorem Prog.Obeys.weaken {allows' : List (Event Call Reply) → Call → Prop}
    {p : Prog Call Reply α} {post : α → List (Event Call Reply) → Prop}
    (h : p.Obeys allows past post) (himp : ∀ past c, allows past c → allows' past c) :
    p.Obeys allows' past post := by
  induction p generalizing past with
  | ret a => exact h
  | call c next ih => exact ⟨himp past c h.1, fun r => ih r (h.2 r)⟩

/-- Two contracts that are kept are kept together. -/
theorem Prog.Obeys.both {allows' : List (Event Call Reply) → Call → Prop}
    {p : Prog Call Reply α} {post post' : α → List (Event Call Reply) → Prop}
    (h : p.Obeys allows past post) (h' : p.Obeys allows' past post') :
    p.Obeys (fun past c => allows past c ∧ allows' past c) past
      (fun a past => post a past ∧ post' a past) := by
  induction p generalizing past with
  | ret a => exact ⟨h, h'⟩
  | call c next ih => exact ⟨⟨h.1, h'.1⟩, fun r => ih r (h.2 r) (h'.2 r)⟩

end Rules

variable {exec : (c : Call) → σ → Reply c × σ} {allows : List (Event Call Reply) → Call → Prop}

/-- A program that runs alone: what its allowed calls keep of the state and of its past holds
in the end. -/
theorem Prog.Obeys.run {I : σ → List (Event Call Reply) → Prop}
    (hstep : ∀ w past c, allows past c → I w past →
      I (exec c w).2 (past ++ [⟨c, (exec c w).1⟩]))
    {p : Prog Call Reply α} {past : List (Event Call Reply)}
    {post : α → List (Event Call Reply) → Prop} {w : σ} (h : p.Obeys allows past post)
    (hI : I w past) : ∃ past', I (p.run exec w).2 past' ∧ post (p.run exec w).1 past' := by
  induction p generalizing past w with
  | ret a => exact ⟨past, hI, h⟩
  | call c next ih => exact ih (exec c w).1 (h.2 (exec c w).1) (hstep w past c h.1 hI)

namespace Config
variable {program : Op → Prog Call Reply Unit}

/-- Every program of the configuration keeps to the contract from some past on, and its past
has a meaning in the state. -/
def Contracted (allows : List (Event Call Reply) → Call → Prop)
    (means : σ → List (Event Call Reply) → Prop) (x : Config σ Call Reply) : Prop :=
  ∀ p ∈ x.threads, ∃ past, p.Obeys allows past (fun _ _ => True) ∧ means x.state past

theorem init_contracted (w : σ) (means : σ → List (Event Call Reply) → Prop) :
    (init w : Config σ Call Reply).Contracted allows means :=
  fun _ hp => absurd hp List.not_mem_nil

section Rule
variable {I : σ → Prop} {means : σ → List (Event Call Reply) → Prop} {cond : σ → Call → Prop}
  {started : Op → Prop}

/-- One action, for what is said of the state and of all calls so far. -/
theorem Contracted.act_events {P : σ → List (Event Call Reply) → Prop}
    (hstep : ∀ w past events c, I w → means w past → allows past c → P w events →
      P (exec c w).2 (events ++ [⟨c, (exec c w).1⟩]))
    {x : Config σ Call Reply} (hx : x.Contracted allows means) (a : Action Op) (hI : I x.state)
    (hP : P x.state x.events) :
    P (x.act exec program a).state (x.act exec program a).events := by
  cases a with
  | start op => exact hP
  | step i =>
    rcases act_step exec program x i with hact | ⟨c, next, hi, hact⟩ <;> rw [hact]
    · exact hP
    · obtain ⟨past, hobeys, hmeans⟩ := hx _ (List.mem_of_getElem? hi)
      exact hstep x.state past x.events c hI hmeans hobeys.1 hP

section Premises
variable (hprogram : ∀ op, started op → (program op).Obeys allows [] (fun _ _ => True))
  (hnil : ∀ w, means w [])
  (hstep : ∀ w past c, I w → means w past → allows past c → cond w c →
    I (exec c w).2 ∧ means (exec c w).2 (past ++ [⟨c, (exec c w).1⟩]) ∧
      ∀ other, means w other → means (exec c w).2 other)
include hprogram hnil hstep

/-- One action: `I` is kept by every allowed call that meets the condition, and so are the
meanings of the pasts of all programs. -/
theorem Contracted.act {x : Config σ Call Reply} (hx : x.Contracted allows means) {a : Action Op}
    (hs : ∀ op, a = .start op → started op) (hmeets : x.Meets cond a) (hI : I x.state) :
    (x.act exec program a).Contracted allows means ∧ I (x.act exec program a).state := by
  cases a with
  | start op =>
    refine ⟨fun p hp => ?_, hI⟩
    rcases List.mem_append.mp hp with hp | hp
    · exact hx p hp
    · rw [List.mem_singleton.mp hp]
      exact ⟨[], hprogram op (hs op rfl), hnil _⟩
  | step i =>
    rcases act_step exec program x i with hact | ⟨c, next, hi, hact⟩ <;> rw [hact]
    · exact ⟨hx, hI⟩
    · simp only [Meets, hi] at hmeets
      obtain ⟨past, hobeys, hmeans⟩ := hx _ (List.mem_of_getElem? hi)
      obtain ⟨hI', hown, hothers⟩ := hstep x.state past c hI hmeans hobeys.1 hmeets
      refine ⟨fun p hp => ?_, hI'⟩
      rcases List.mem_or_eq_of_mem_set hp with hp | rfl
      · obtain ⟨other, ho, hm⟩ := hx p hp
        exact ⟨other, ho, hothers other hm⟩
      · exact ⟨past ++ [⟨c, (exec c x.state).1⟩], hobeys.2 (exec c x.state).1, hown⟩

/-- The rule for schedules of programs under a contract. -/
theorem contract_rule (schedule : List (Action Op)) (x : Config σ Call Reply)
    (hx : x.Contracted allows means)
    (hs : ∀ op, .start op ∈ schedule → started op) (hc : AllMeet exec program cond x schedule)
    (hI : I x.state) :
    I (x.after exec program schedule).state := by
  induction schedule generalizing x with
  | nil => exact hI
  | cons a schedule ih =>
    obtain ⟨hx', hI'⟩ := hx.act hprogram hnil hstep
      (fun op ha => hs op (ha ▸ List.mem_cons_self)) hc.1 hI
    exact ih _ hx' (fun op hm => hs op (List.mem_cons_of_mem a hm)) hc.2 hI'

end Premises

/-- The rule for what is said of the state and of all calls so far. -/
theorem contract_trace_rule {P : σ → List (Event Call Reply) → Prop}
    (hprogram : ∀ op, (program op).Obeys allows [] (fun _ _ => True))
    (hnil : ∀ w, means w [])
    (hstep : ∀ w past c, I w → means w past → allows past c →
      I (exec c w).2 ∧ means (exec c w).2 (past ++ [⟨c, (exec c w).1⟩]) ∧
        ∀ other, means w other → means (exec c w).2 other)
    (hevent : ∀ w past events c, I w → means w past → allows past c → P w events →
      P (exec c w).2 (events ++ [⟨c, (exec c w).1⟩]))
    (schedule : List (Action Op)) (x : Config σ Call Reply) (hx : x.Contracted allows means)
    (hI : I x.state) (hP : P x.state x.events) :
    I (x.after exec program schedule).state ∧
      P (x.after exec program schedule).state (x.after exec program schedule).events := by
  induction schedule generalizing x with
  | nil => exact ⟨hI, hP⟩
  | cons a schedule ih =>
    have hP' : P (x.act exec program a).state (x.act exec program a).events :=
      hx.act_events hevent a hI hP
    obtain ⟨hx', hI'⟩ := hx.act (fun op (_ : True) => hprogram op) hnil
      (fun w past c hI hm ha (_ : True) => hstep w past c hI hm ha) (fun _ _ => trivial)
      (meets_true x a) hI
    exact ih _ hx' hI' hP'

end Rule
end Config
end RabbitmqLite.Atomic
