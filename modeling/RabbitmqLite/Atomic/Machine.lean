import Mathlib.Tactic

/-! # Runs of a machine driven by calls

A machine answers a call with a reply, whose type the call fixes, and moves to
a new state. A run is a list of calls issued one after the other; its trace
pairs every call with its reply. Facts about runs are proved by extending a
run at its end, and two machines are compared by a relation between their
states that every legal call preserves.
-/

namespace RabbitmqLite.Atomic

/-- A call together with the reply it got. -/
structure Event (Call : Type*) (Reply : Call → Type*) where
  call : Call
  reply : Reply call

instance {Call : Type*} {Reply : Call → Type*} [DecidableEq Call]
    [∀ c, DecidableEq (Reply c)] : DecidableEq (Event Call Reply)
  | ⟨c, r⟩, ⟨c', r'⟩ =>
    if h : c = c' then
      match c', h, r' with
      | _, rfl, r' => decidable_of_iff (r = r') (by simp)
    else .isFalse (fun he => h (congrArg Event.call he))

/-- Extend a list of calls at its end. `Legal` is a condition on the whole list
that every prefix of a legal list meets. -/
theorem run_induction {Call : Type*} {Legal P : List Call → Prop}
    (hshrink : ∀ cs c, Legal (cs ++ [c]) → Legal cs) (hnil : P [])
    (hsnoc : ∀ cs c, Legal (cs ++ [c]) → P cs → P (cs ++ [c])) :
    ∀ cs, Legal cs → P cs := by
  intro cs
  induction cs using List.reverseRecOn with
  | nil => exact fun _ => hnil
  | append_singleton cs c ih => exact fun hl => hsnoc cs c hl (ih (hshrink cs c hl))

section Run
variable {σ Call : Type*} {Reply : Call → Type*} (exec : (c : Call) → σ → Reply c × σ)

/-- The state after a list of calls. -/
def after (s : σ) (cs : List Call) : σ := cs.foldl (fun s c => (exec c s).2) s

/-- The calls of a run with their replies, oldest first. -/
def trace (s : σ) : List Call → List (Event Call Reply)
  | [] => []
  | c :: cs => ⟨c, (exec c s).1⟩ :: trace (exec c s).2 cs

@[simp] theorem after_nil (s : σ) : after exec s [] = s := rfl

@[simp] theorem after_append (s : σ) (cs ds : List Call) :
    after exec s (cs ++ ds) = after exec (after exec s cs) ds := by
  simp [after]

@[simp] theorem after_singleton (s : σ) (c : Call) : after exec s [c] = (exec c s).2 := rfl

@[simp] theorem trace_nil (s : σ) : trace exec s [] = [] := rfl

theorem trace_append (s : σ) (cs ds : List Call) :
    trace exec s (cs ++ ds) = trace exec s cs ++ trace exec (after exec s cs) ds := by
  induction cs generalizing s with
  | nil => rfl
  | cons c cs ih => exact congrArg _ (ih _)

theorem trace_snoc (s : σ) (cs : List Call) (c : Call) :
    trace exec s (cs ++ [c]) = trace exec s cs ++ [⟨c, (exec c (after exec s cs)).1⟩] :=
  trace_append exec s cs [c]

/-- Every event of a trace is the reply of the machine at that point of the run. -/
theorem trace_split {s : σ} {cs : List Call} {before later : List (Event Call Reply)}
    {e : Event Call Reply} (h : trace exec s cs = before ++ e :: later) :
    ∃ ds c fs, cs = ds ++ c :: fs ∧ before = trace exec s ds ∧
      e = ⟨c, (exec c (after exec s ds)).1⟩ ∧ later = trace exec (after exec s (ds ++ [c])) fs := by
  induction before generalizing s cs with
  | nil =>
    cases cs with
    | nil => simp at h
    | cons c cs =>
      obtain ⟨he, hl⟩ := List.cons.inj h
      exact ⟨[], c, cs, rfl, rfl, he.symm, hl.symm⟩
  | cons b before ih =>
    cases cs with
    | nil => simp at h
    | cons c cs =>
      obtain ⟨hb, hl⟩ := List.cons.inj h
      obtain ⟨ds, d, fs, rfl, rfl, he, hf⟩ := ih hl
      exact ⟨c :: ds, d, fs, rfl, by rw [← hb]; rfl, he, hf⟩

/-- What an observer notes about the calls of a run, from the states they find, oldest first. -/
def observed {β : Type*} (observe : σ → Call → Option β) : σ → List Call → List β
  | _, [] => []
  | s, c :: cs => (observe s c).toList ++ observed observe (exec c s).2 cs

theorem observed_snoc {β : Type*} (observe : σ → Call → Option β) (s : σ) (cs : List Call)
    (c : Call) : observed exec observe s (cs ++ [c]) =
      observed exec observe s cs ++ (observe (after exec s cs) c).toList := by
  induction cs generalizing s with
  | nil => exact List.append_nil _
  | cons d cs ih =>
    rw [List.cons_append, observed, ih, observed, List.append_assoc]
    rfl

/-- Every call of the list meets the condition in the state it finds. -/
def StepsMeet (cond : σ → Call → Prop) : σ → List Call → Prop
  | _, [] => True
  | s, c :: cs => cond s c ∧ StepsMeet cond (exec c s).2 cs

instance decidableStepsMeet (cond : σ → Call → Prop) [∀ s c, Decidable (cond s c)] :
    (s : σ) → (cs : List Call) → Decidable (StepsMeet exec cond s cs)
  | _, [] => .isTrue trivial
  | s, c :: cs =>
    have := decidableStepsMeet cond (exec c s).2 cs
    inferInstanceAs (Decidable (_ ∧ _))

theorem StepsMeet.of_prefix {cond : σ → Call → Prop} {s : σ} {done cs : List Call}
    (h : StepsMeet exec cond s cs) (hd : done <+: cs) : StepsMeet exec cond s done := by
  induction done generalizing s cs with
  | nil => trivial
  | cons c done ih =>
    obtain ⟨rest, rfl⟩ := hd
    exact ⟨h.1, ih h.2 (List.prefix_append done rest)⟩

theorem StepsMeet.append {cond : σ → Call → Prop} {s : σ} {cs ds : List Call}
    (h : StepsMeet exec cond s cs) (hd : StepsMeet exec cond (after exec s cs) ds) :
    StepsMeet exec cond s (cs ++ ds) := by
  induction cs generalizing s with
  | nil => exact hd
  | cons c cs ih => exact ⟨h.1, ih h.2 hd⟩

theorem StepsMeet.last {cond : σ → Call → Prop} {s : σ} {cs : List Call} {c : Call}
    (h : StepsMeet exec cond s (cs ++ [c])) : cond (after exec s cs) c := by
  induction cs generalizing s with
  | nil => exact h.1
  | cons d cs ih => exact ih h.2

theorem StepsMeet.mono {cond cond' : σ → Call → Prop} (himp : ∀ s c, cond s c → cond' s c) {s : σ}
    {cs : List Call} (h : StepsMeet exec cond s cs) : StepsMeet exec cond' s cs := by
  induction cs generalizing s with
  | nil => trivial
  | cons c cs ih => exact ⟨himp s c h.1, ih h.2⟩

theorem stepsMeet_of_forall {p : Call → Prop} {cs : List Call} (h : ∀ c ∈ cs, p c) (s : σ) :
    StepsMeet exec (fun _ c => p c) s cs := by
  induction cs generalizing s with
  | nil => trivial
  | cons c cs ih =>
    exact ⟨h c List.mem_cons_self, ih (fun d hd => h d (List.mem_cons_of_mem c hd)) _⟩

/-- What holds at first and is kept by every call that meets the condition holds after a
run of such calls, of the state and of what has happened so far. -/
theorem run_rule {cond : σ → Call → Prop} {I : σ → List (Event Call Reply) → Prop}
    (hstep : ∀ s es c, cond s c → I s es → I (exec c s).2 (es ++ [⟨c, (exec c s).1⟩]))
    {cs : List Call} {s : σ} {es : List (Event Call Reply)} (hc : StepsMeet exec cond s cs)
    (h : I s es) : I (after exec s cs) (es ++ trace exec s cs) := by
  induction cs generalizing s es with
  | nil => simpa using h
  | cons c cs ih =>
    have hnext := ih hc.2 (hstep s es c hc.1 h)
    rwa [List.append_assoc] at hnext

/-- Calls that each lower a weight are no more than the weight at first. -/
theorem StepsMeet.length_le {cond : σ → Call → Prop} {weight : σ → ℕ}
    (hstep : ∀ s c, cond s c → weight (exec c s).2 < weight s) {cs : List Call} {s : σ}
    (hc : StepsMeet exec cond s cs) : cs.length ≤ weight s := by
  induction cs generalizing s with
  | nil => exact Nat.zero_le _
  | cons c cs ih => exact Nat.succ_le_of_lt ((ih hc.2).trans_lt (hstep s c hc.1))

/-- If each call keeps `P` exactly if it meets the condition, `P` holds in all states of a run
exactly if all its calls do. -/
theorem forall_prefix_iff_stepsMeet {cond : σ → Call → Prop} {I P : σ → Prop}
    (hI : ∀ s c, I s → I (exec c s).2)
    (hstep : ∀ s c, I s → P s → (P (exec c s).2 ↔ cond s c)) {s : σ} (hs : I s) (hP : P s)
    (cs : List Call) :
    (∀ done, done <+: cs → P (after exec s done)) ↔ StepsMeet exec cond s cs := by
  induction cs generalizing s with
  | nil =>
    simp only [List.prefix_nil, forall_eq, StepsMeet, iff_true]
    exact hP
  | cons c cs ih =>
    constructor
    · intro h
      have hc : P (exec c s).2 := h [c] (List.cons_prefix_cons.mpr ⟨rfl, List.nil_prefix⟩)
      exact ⟨(hstep s c hs hP).mp hc, (ih (hI s c hs) hc).mp
        (fun done hd => h (c :: done) (List.cons_prefix_cons.mpr ⟨rfl, hd⟩))⟩
    · rintro ⟨hc, hrest⟩ done hd
      cases done with
      | nil => exact hP
      | cons d done =>
        obtain ⟨rfl, hdone⟩ := List.cons_prefix_cons.mp hd
        exact (ih (hI s d hs) ((hstep s d hs hP).mpr hc)).mpr hrest done hdone

end Run

section Simulation
variable {σ τ Call : Type*} {Reply : Call → Type*} {execA : (c : Call) → σ → Reply c × σ}
  {execB : (c : Call) → τ → Reply c × τ}

/-- Machines related by a relation that every legal call preserves stay related. -/
theorem simulation_after {a : σ} {b : τ} {Legal : List Call → Prop}
    (hshrink : ∀ cs c, Legal (cs ++ [c]) → Legal cs) {R : List Call → σ → τ → Prop}
    (hinit : R [] a b)
    (hstep : ∀ cs c s t, Legal (cs ++ [c]) → R cs s t →
      R (cs ++ [c]) (execA c s).2 (execB c t).2) :
    ∀ cs, Legal cs → R cs (after execA a cs) (after execB b cs) := by
  refine run_induction hshrink hinit (fun cs c hl hr => ?_)
  simpa using hstep cs c _ _ hl hr

/-- If related machines also answer every legal call alike, their traces are equal. -/
theorem simulation_trace {a : σ} {b : τ} {Legal : List Call → Prop}
    (hshrink : ∀ cs c, Legal (cs ++ [c]) → Legal cs) {R : List Call → σ → τ → Prop}
    (hinit : R [] a b)
    (hstep : ∀ cs c s t, Legal (cs ++ [c]) → R cs s t →
      R (cs ++ [c]) (execA c s).2 (execB c t).2)
    (hreply : ∀ cs c s t, Legal (cs ++ [c]) → R cs s t → (execA c s).1 = (execB c t).1) :
    ∀ cs, Legal cs → trace execA a cs = trace execB b cs := by
  refine run_induction hshrink rfl (fun cs c hl ih => ?_)
  have hr := simulation_after hshrink hinit hstep cs (hshrink cs c hl)
  rw [trace_snoc, trace_snoc, ih, hreply cs c _ _ hl hr]

end Simulation
end RabbitmqLite.Atomic
