import RabbitmqLite.Worker.Shutdown

/-! # The counters of a pool

`Queued` and `InFlight` read two counters that the goroutines raise and lower on
their own, each in a step of its own beside the channel. At every moment both
are exact sums over where the goroutines stand, so neither ever falls below
zero. A submission that panics never takes its count back.
-/

namespace RabbitmqLite.Worker
open Atomic Collections

/-- The submission has raised the counter for a task it has not handed over. -/
def Stage.queued : Stage → ℕ
  | .selecting | .withdrawing _ | .panicked => 1
  | .checking | .counting | .returned _ => 0

def Submission.queued (s : Submission) : ℕ := s.stage.queued

/-- The submission has come to its end, by an answer or by a panic. -/
def Submission.Ended (s : Submission) : Prop :=
  s.stage = .panicked ∨ ∃ answer, s.stage = .returned answer

/-- The worker has taken a task and has not lowered the counter for it. -/
def Runner.queued : Runner → ℕ
  | .received _ => 1
  | _ => 0

def Runner.inFlight : Runner → ℕ
  | .running _ | .ran => 1
  | _ => 0

namespace Pool
variable {p q : Pool} {a : Act} {i k : ℕ}

/-- Tasks that a submission has counted and still holds. -/
def held (p : Pool) : ℕ := (p.submissions.map Submission.queued).sum

/-- Tasks that a worker has taken and still counts as queued. -/
def taken (p : Pool) : ℕ := (p.workers.map Runner.queued).sum

/-- Tasks that workers have under way. -/
def busy (p : Pool) : ℕ := (p.workers.map Runner.inFlight).sum

theorem sum_held_set {s r : Submission} (hs : p.submissions[i]? = some s)
    (hq : q.submissions = p.submissions.set i r) :
    q.held + s.stage.queued = p.held + r.stage.queued := by
  rw [held, hq]
  exact sum_map_set Submission.queued hs r

theorem held_accepted {s : Submission} (hs : p.submissions[i]? = some s)
    (hstage : s.stage = .selecting)
    (hq : q.submissions = p.submissions.set i { s with stage := .returned .accepted }) :
    q.held + 1 = p.held := by
  have hsum := sum_held_set hs hq
  rw [hstage] at hsum
  exact hsum

theorem taken_set {w w' : Runner} (hw : p.workers[k]? = some w)
    (hq : q.workers = p.workers.set k w') : q.taken + w.queued = p.taken + w'.queued := by
  rw [taken, hq]
  exact sum_map_set Runner.queued hw w'

theorem busy_set {w w' : Runner} (hw : p.workers[k]? = some w)
    (hq : q.workers = p.workers.set k w') : q.busy + w.inFlight = p.busy + w'.inFlight := by
  rw [busy, hq]
  exact sum_map_set Runner.inFlight hw w'

/-- Where the goroutines stand is what the counters say. -/
structure Counted (p : Pool) : Prop where
  queued : p.queued = ((p.held + p.tasks.length + p.taken : ℕ) : ℤ)
  inFlight : p.inFlight = (p.busy : ℤ)

/-- A submission moves on, and the counter with it. -/
theorem Counted.of_submission (h : Counted p) {s r : Submission}
    (hs : p.submissions[i]? = some s) (hq : q.submissions = p.submissions.set i r)
    (hqueued : q.queued + s.stage.queued = p.queued + r.stage.queued)
    (hin : q.inFlight = p.inFlight) (ht : q.tasks = p.tasks) (hw : q.workers = p.workers) :
    Counted q := by
  have hheld := sum_held_set hs hq
  have hold := h.queued
  refine ⟨?_, by rw [hin, busy, hw]; exact h.inFlight⟩
  rw [ht, taken, hw, ← taken]
  omega

/-- A worker moves on, and the counters with it. -/
theorem Counted.of_worker (h : Counted p) {w w' : Runner} (hw : p.workers[k]? = some w)
    (hq : q.workers = p.workers.set k w')
    (hqueued : q.queued + w.queued = p.queued + w'.queued)
    (hin : q.inFlight + w.inFlight = p.inFlight + w'.inFlight) (ht : q.tasks = p.tasks)
    (hs : q.submissions = p.submissions) : Counted q := by
  have htaken := taken_set hw hq
  have hbusy := busy_set hw hq
  have hold := h.queued
  have hold' := h.inFlight
  refine ⟨?_, by omega⟩
  rw [ht, held, hs, ← held]
  omega

theorem uncounted {w : Runner} (h : w = .idle ∨ w = .waiting) : w.queued = 0 ∧ w.inFlight = 0 := by
  rcases h with rfl | rfl <;> exact ⟨rfl, rfl⟩

/-- The count goes over to the worker with the task. -/
theorem Counted.handOver (h : Counted p) {s : Submission} (hs : p.submissions[i]? = some s)
    (hstage : s.stage = .selecting) (hw : p.workers[k]? = some .waiting)
    (hsub : q.submissions = p.submissions.set i { s with stage := .returned .accepted })
    (hwork : q.workers = p.workers.set k (.received i)) (hqueued : q.queued = p.queued)
    (hin : q.inFlight = p.inFlight) (ht : q.tasks = p.tasks) : Counted q := by
  have hheld := held_accepted hs hstage hsub
  have htaken : q.taken + 0 = p.taken + 1 := taken_set hw hwork
  have hbusy : q.busy + 0 = p.busy + 0 := busy_set hw hwork
  have hold := h.queued
  have hflight := h.inFlight
  refine ⟨?_, by omega⟩
  rw [hqueued, ht]
  omega

/-- The count goes over to the channel. -/
theorem Counted.enqueue (h : Counted p) {s : Submission} (hs : p.submissions[i]? = some s)
    (hstage : s.stage = .selecting)
    (hsub : q.submissions = p.submissions.set i { s with stage := .returned .accepted })
    (hwork : q.workers = p.workers) (hqueued : q.queued = p.queued)
    (hin : q.inFlight = p.inFlight) (ht : q.tasks = p.tasks ++ [i]) : Counted q := by
  have hheld := held_accepted hs hstage hsub
  have hold := h.queued
  refine ⟨?_, by rw [hin, busy, hwork]; exact h.inFlight⟩
  rw [hqueued, ht, taken, hwork, ← taken, List.length_append, List.length_singleton]
  omega

/-- The count goes over from the channel to a worker. -/
theorem Counted.receive (h : Counted p) {w : Runner} {task : ℕ} {tasks : List ℕ}
    (hw : p.workers[k]? = some w) (hidle : w = .idle ∨ w = .waiting)
    (htasks : p.tasks = task :: tasks) (hwork : q.workers = p.workers.set k (.received task))
    (hsub : q.submissions = p.submissions) (hqueued : q.queued = p.queued)
    (hin : q.inFlight = p.inFlight) (ht : q.tasks = tasks) : Counted q := by
  obtain ⟨hqueue, hflight⟩ := uncounted hidle
  have htaken : q.taken + w.queued = p.taken + 1 := taken_set hw hwork
  have hbusy : q.busy + w.inFlight = p.busy + 0 := busy_set hw hwork
  have hold := h.queued
  have hold' := h.inFlight
  rw [htasks, List.length_cons] at hold
  refine ⟨?_, by omega⟩
  rw [hqueued, ht, held, hsub, ← held]
  omega

theorem Counted.moves (h : Counted p) (hm : Moves p a q) : Counted q := by
  have hold := h.queued
  cases hm with
  | arrive kind =>
    have hheld :
        ({ p with submissions := p.submissions ++ [⟨kind, false, .checking⟩] } : Pool).held =
          p.held := by
      simp [held, Submission.queued, Stage.queued]
    exact ⟨by rw [hheld]; exact hold, h.inFlight⟩
  | cancel hs => exact h.of_submission hs rfl rfl rfl rfl rfl
  | refuse hs hstage => exact h.of_submission hs rfl (by rw [hstage]; rfl) rfl rfl rfl
  | pass hs hstage => exact h.of_submission hs rfl (by rw [hstage]; rfl) rfl rfl rfl
  | count hs hstage =>
    refine h.of_submission hs rfl ?_ rfl rfl rfl
    rw [hstage]
    exact add_zero _
  | panic hs hstage => exact h.of_submission hs rfl (by rw [hstage]; rfl) rfl rfl rfl
  | handOver hs hstage _ hw => exact h.handOver hs hstage hw rfl rfl rfl rfl rfl
  | enqueue hs hstage => exact h.enqueue hs hstage rfl rfl rfl rfl rfl
  | giveUp hs hstage => exact h.of_submission hs rfl (by rw [hstage]; rfl) rfl rfl rfl
  | withdraw hs hstage =>
    refine h.of_submission hs rfl ?_ rfl rfl rfl
    rw [hstage]
    exact (sub_add_cancel _ _).trans (add_zero _).symm
  | receive hw hidle htasks => exact h.receive hw hidle htasks rfl rfl rfl rfl rfl
  | exit hw hidle =>
    have hnone := uncounted hidle
    exact h.of_worker hw rfl (by rw [hnone.1]; rfl) (by rw [hnone.2]; rfl) rfl rfl
  | park hw hidle =>
    have hnone := uncounted hidle
    exact h.of_worker hw rfl (by rw [hnone.1]; rfl) (by rw [hnone.2]; rfl) rfl rfl
  | uncount hw =>
    exact h.of_worker hw rfl ((sub_add_cancel _ _).trans (add_zero _).symm) rfl rfl rfl
  | start hw => exact h.of_worker hw rfl rfl (add_zero _) rfl rfl
  | execute hw => exact h.of_worker hw rfl rfl rfl rfl rfl
  | finish hw =>
    exact h.of_worker hw rfl rfl ((sub_add_cancel _ _).trans (add_zero _).symm) rfl rfl
  | _ => exact ⟨hold, h.inFlight⟩

theorem counted_started (config : PoolConfig) : Counted (started config) := by
  refine ⟨?_, ?_⟩ <;> simp [started, held, taken, busy, Runner.queued, Runner.inFlight]

theorem Moves.length_workers (hm : Moves p a q) : q.workers.length = p.workers.length := by
  cases hm with
  | handOver | receive | exit | park | uncount | start | execute | finish => exact List.length_set
  | _ => rfl

theorem sum_queued_of_ended {l : List Submission} (h : ∀ s ∈ l, s.Ended) :
    (l.map Submission.queued).sum = l.countP (fun s => s.stage = .panicked) := by
  induction l with
  | nil => rfl
  | cons s l ih =>
    obtain ⟨hs, hl⟩ := List.forall_mem_cons.mp h
    rw [List.map_cons, List.sum_cons, ih hl, List.countP_cons, add_comm]
    rcases hs with hstage | ⟨answer, hstage⟩ <;> simp [Submission.queued, hstage, Stage.queued]

/-- What the two counters say, in any state of a pool of `size` workers. -/
structure Gauged (size : ℕ) (p : Pool) : Prop where
  counted : Counted p
  queued_nonneg : 0 ≤ p.queued
  inFlight_nonneg : 0 ≤ p.inFlight
  inFlight_le : p.inFlight ≤ size
  queued_le : p.queued ≤ p.held + p.capacity + size
  stopped : .returned ∈ p.stops → p.inFlight = 0 ∧ p.queued = p.held
  leaked : .returned ∈ p.stops → (∀ s ∈ p.submissions, s.Ended) →
    p.queued = p.submissions.countP (fun s => s.stage = .panicked)

theorem Counted.gauged (h : Counted p) (hc : Consistent p) : Gauged p.workers.length p := by
  have hqueued := h.queued
  have hflight := h.inFlight
  have htaken : p.taken ≤ p.workers.length :=
    sum_map_le_length (fun w => by cases w <;> simp [Runner.queued]) _
  have hbusy : p.busy ≤ p.workers.length :=
    sum_map_le_length (fun w => by cases w <;> simp [Runner.inFlight]) _
  have hroom := hc.channelled.bounded
  have hended : .returned ∈ p.stops → p.inFlight = 0 ∧ p.queued = p.held := by
    intro hreturned
    have hexited := hc.stops.ended hreturned
    obtain ⟨w, hw⟩ := List.exists_mem_of_length_pos hc.channelled.staffed
    have hempty := (hc.channelled.drained (hexited w hw ▸ hw)).2
    have hnone : ∀ f : Runner → ℕ, f .exited = 0 → (p.workers.map f).sum = 0 := by
      intro f hf
      rw [List.sum_eq_zero_iff]
      intro n hn
      obtain ⟨w, hw, rfl⟩ := List.mem_map.mp hn
      rw [hexited w hw, hf]
    have hbusy0 : p.busy = 0 := hnone _ rfl
    have htaken0 : p.taken = 0 := hnone _ rfl
    rw [hempty, List.length_nil] at hqueued
    exact ⟨by omega, by omega⟩
  refine ⟨h, by omega, by omega, by omega, by omega, hended, fun hreturned hall => ?_⟩
  rw [(hended hreturned).2, held, sum_queued_of_ended hall]

theorem ran_counted (config : PoolConfig) (acts : List Act) :
    Counted (ran config acts) ∧
      (ran config acts).workers.length = config.withDefaults.size.toNat := by
  induction acts using List.reverseRecOn with
  | nil => exact ⟨counted_started config, List.length_replicate⟩
  | append_singleton acts a ih =>
    rw [ran, after_append, after_singleton]
    exact ⟨ih.1.moves (act_moves a), (act_moves a).length_workers.trans ih.2⟩

/-- The counters of a pool are exact whatever the order of the steps; once `Stop` has returned
they are what the panicked submissions left behind. -/
theorem counters_exact (config : PoolConfig) (acts : List Act) :
    Gauged config.withDefaults.size.toNat (ran config acts) := by
  obtain ⟨hcounted, hlength⟩ := ran_counted config acts
  have hgauged := hcounted.gauged (consistent_after (consistent_started config) acts)
  rwa [hlength] at hgauged

/-- One task is executed; a second submission has passed the check when `Stop` is called, and meets
the closed channel. -/
def stoppedRun : List Act :=
  .submit .submit :: List.replicate 3 (.submission 0 (.send 0)) ++
    [.submit .submit, .submission 1 (.send 0), .stop] ++ List.replicate 4 (.stopper 0) ++
    List.replicate 2 (.submission 1 (.send 0)) ++ List.replicate 6 (.work 0) ++ [.stopper 0]

theorem counters_exact_stoppedRun :
    .returned ∈ (ran ⟨1, 1⟩ stoppedRun).stops ∧ (ran ⟨1, 1⟩ stoppedRun).executed = [0] ∧
      (ran ⟨1, 1⟩ stoppedRun).inFlight = 0 ∧ (ran ⟨1, 1⟩ stoppedRun).queued = 1 := by
  have h := counters_exact ⟨1, 1⟩ stoppedRun
  have hreturned : .returned ∈ (ran ⟨1, 1⟩ stoppedRun).stops := by decide +kernel
  have hsubmissions : (ran ⟨1, 1⟩ stoppedRun).submissions =
      [⟨.submit, false, .returned .accepted⟩, ⟨.submit, false, .panicked⟩] := by decide +kernel
  have hended : ∀ s ∈ (ran ⟨1, 1⟩ stoppedRun).submissions, s.Ended := by
    rw [hsubmissions]
    simp [Submission.Ended]
  have hqueued := h.leaked hreturned hended
  rw [hsubmissions] at hqueued
  exact ⟨hreturned, by decide +kernel, (h.stopped hreturned).1, hqueued⟩

end Pool
end RabbitmqLite.Worker
