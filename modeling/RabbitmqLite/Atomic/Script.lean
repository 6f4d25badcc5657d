import RabbitmqLite.Collections.Tally

/-! # Interleaved scripts

A script is a list of steps that a goroutine makes one after the other, whatever
the state is. Any number of scripts are started and run, and the steps of
different scripts may come in any order. The state is the one the steps made so
far lead to; what was made and what is left are together what was started, and a
step is made only after the steps before it in its script.
-/

namespace RabbitmqLite.Atomic

/-- Start an operation, or let a started one make its next step. -/
inductive Turn (Op : Type*) where
  | start (op : Op)
  | step (i : ℕ)

/-- The state, what is left of each script, what was started and what was made, oldest first. -/
structure Scripts (σ Op Step : Type*) where
  state : σ
  left : List (List Step)
  started : List Op
  made : List Step

namespace Scripts
variable {σ Op Step : Type*} (exec : Step → σ → σ) (script : Op → List Step)

def init (s : σ) : Scripts σ Op Step := ⟨s, [], [], []⟩

def act (x : Scripts σ Op Step) : Turn Op → Scripts σ Op Step
  | .start op => { x with left := x.left ++ [script op], started := x.started ++ [op] }
  | .step i =>
    match x.left[i]? with
    | some (step :: rest) =>
      { x with
        state := exec step x.state
        left := x.left.set i rest
        made := x.made ++ [step] }
    | _ => x

def run (s : σ) (turns : List (Turn Op)) : Scripts σ Op Step :=
  turns.foldl (act exec script) (init s)

/-- All scripts have come to their end. -/
def Finished (x : Scripts σ Op Step) : Prop := ∀ rest ∈ x.left, rest = []

/-- The steps before each step of a script were made before it. -/
def InTurn (started : List Op) (made : List Step) : Prop :=
  ∀ before step later, made = before ++ step :: later →
    ∃ op ∈ started, ∃ past rest, script op = past ++ step :: rest ∧ ∀ p ∈ past, p ∈ before

structure Sound (s : σ) (x : Scripts σ Op Step) : Prop where
  state : x.state = x.made.foldl (fun s step => exec step s) s
  perm : (x.made ++ x.left.flatten).Perm (x.started.flatMap script)
  scripts : ∀ rest ∈ x.left, ∃ op ∈ x.started, ∃ past, script op = past ++ rest ∧
    ∀ p ∈ past, p ∈ x.made
  inTurn : InTurn script x.started x.made

variable {exec script} {s : σ} {x : Scripts σ Op Step}

theorem init_sound (s : σ) : (init s : Scripts σ Op Step).Sound exec script s :=
  ⟨rfl, .refl _, nofun, fun before step later h => by cases before <;> cases h⟩

theorem InTurn.snoc {started : List Op} {made past rest : List Step} {op : Op} {step : Step}
    (h : InTurn script started made) (hop : op ∈ started) (heq : script op = past ++ step :: rest)
    (hpast : ∀ p ∈ past, p ∈ made) : InTurn script started (made ++ [step]) := by
  intro before next later hsplit
  rcases List.eq_nil_or_concat later with rfl | ⟨init, last, rfl⟩
  · obtain ⟨rfl, hlast⟩ := List.append_inj' hsplit rfl
    obtain rfl := List.singleton_inj.mp hlast
    exact ⟨op, hop, past, rest, heq, hpast⟩
  · rw [List.concat_eq_append, ← List.cons_append, ← List.append_assoc] at hsplit
    exact h before next init (List.append_inj' hsplit rfl).1

theorem perm_flatten_set {l : List (List Step)} {i : ℕ} {step : Step} {rest : List Step}
    (h : l[i]? = some (step :: rest)) : l.flatten.Perm (step :: (l.set i rest).flatten) := by
  obtain ⟨front, back, rfl, -, hset⟩ := Collections.exists_split_at h
  rw [hset]
  simp only [List.flatten_append, List.flatten_cons, List.cons_append]
  exact List.perm_middle

theorem Sound.act (h : x.Sound exec script s) (turn : Turn Op) :
    (x.act exec script turn).Sound exec script s := by
  cases turn with
  | start op =>
    refine ⟨h.state, ?_, fun rest hrest => ?_, fun before step later hsplit => ?_⟩
    · simp only [Scripts.act, List.flatten_append, List.flatten_singleton, List.flatMap_append,
        List.flatMap_singleton, ← List.append_assoc]
      exact h.perm.append_right (script op)
    · rcases List.mem_append.mp hrest with hrest | hrest
      · obtain ⟨old, hold, past, heq, hpast⟩ := h.scripts rest hrest
        exact ⟨old, List.mem_append_left _ hold, past, heq, hpast⟩
      · exact ⟨op, List.mem_append_right _ (List.mem_singleton_self op), [],
          (List.mem_singleton.mp hrest).symm, nofun⟩
    · obtain ⟨old, hold, hrest⟩ := h.inTurn before step later hsplit
      exact ⟨old, List.mem_append_left _ hold, hrest⟩
  | step i =>
    rcases hi : x.left[i]? with _ | _ | ⟨step, rest⟩
    · simpa only [Scripts.act, hi] using h
    · simpa only [Scripts.act, hi] using h
    · simp only [Scripts.act, hi]
      obtain ⟨op, hop, past, heq, hpast⟩ := h.scripts _ (List.mem_of_getElem? hi)
      refine ⟨?_, ?_, fun left hleft => ?_, h.inTurn.snoc hop heq hpast⟩
      · rw [List.foldl_append, ← h.state]
        rfl
      · rw [List.append_assoc, List.singleton_append]
        exact ((perm_flatten_set hi).symm.append_left x.made).trans h.perm
      · rcases List.mem_or_eq_of_mem_set hleft with hleft | rfl
        · obtain ⟨old, hold, past, heq, hpast⟩ := h.scripts left hleft
          exact ⟨old, hold, past, heq, fun p hp => List.mem_append_left _ (hpast p hp)⟩
        · refine ⟨op, hop, past ++ [step], by rw [heq, List.append_assoc]; rfl, fun p hp => ?_⟩
          rcases List.mem_append.mp hp with hp | hp
          · exact List.mem_append_left _ (hpast p hp)
          · exact List.mem_append_right _ hp

theorem run_sound (s : σ) (turns : List (Turn Op)) :
    (run exec script s turns).Sound exec script s := by
  induction turns using List.reverseRecOn with
  | nil => exact init_sound s
  | append_singleton turns turn ih =>
    rw [run, List.foldl_append]
    exact ih.act turn

end Scripts
end RabbitmqLite.Atomic
