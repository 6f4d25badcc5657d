import RabbitmqLite.Worker.Shutdown

/-! # A pool comes to rest

Every step of a worker, of a submission under way and of a call of `Stop` lowers
a weight of the pool, or it changes nothing. A single call of `Stop` that finds
all submissions returned is never stuck: as long as it has not returned, it or
some worker can make a step.
-/

namespace RabbitmqLite.Worker
open Collections

/-! ## The weight -/

def Stage.weight : Stage → ℕ
  | .checking => 11
  | .counting => 10
  | .selecting => 9
  | .withdrawing _ => 1
  | .returned _ | .panicked => 0

def Submission.weight (s : Submission) : ℕ := s.stage.weight + if s.cancelled then 0 else 1

def Runner.weight : Runner → ℕ
  | .received _ => 6
  | .counted _ => 5
  | .running _ => 4
  | .ran => 3
  | .idle => 2
  | .waiting => 1
  | .exited => 0

def Stopper.weight : Stopper → ℕ
  | .entering => 5
  | .marking => 4
  | .closing => 3
  | .leaving => 2
  | .draining => 1
  | .returned | .panicked => 0

namespace Pool
variable {p q : Pool} {a : Act}

def weight (p : Pool) : ℕ :=
  6 * p.tasks.length + (p.submissions.map Submission.weight).sum +
    (p.workers.map Runner.weight).sum + (p.stops.map Stopper.weight).sum

section Sums
variable {i k j : ℕ} {s : Submission} {w : Runner} {x : Stopper}

theorem weight_setStage (hs : p.submissions[i]? = some s) (stage : Stage) :
    (p.setStage i s stage).weight + s.stage.weight = p.weight + stage.weight := by
  have hsum := sum_map_set Submission.weight hs { s with stage }
  have hold : s.weight = s.stage.weight + if s.cancelled then 0 else 1 := rfl
  have hnew : ({ s with stage } : Submission).weight =
    stage.weight + if s.cancelled then 0 else 1 := rfl
  simp only [weight, setStage]
  omega

theorem weight_setWorker (hw : p.workers[k]? = some w) (w' : Runner) :
    (p.setWorker k w').weight + w.weight = p.weight + w'.weight := by
  have hsum := sum_map_set Runner.weight hw w'
  simp only [weight, setWorker]
  omega

theorem weight_setStopper (hx : p.stops[j]? = some x) (x' : Stopper) :
    (p.setStopper j x').weight + x.weight = p.weight + x'.weight := by
  have hsum := sum_map_set Stopper.weight hx x'
  simp only [weight, setStopper]
  omega

theorem setStage_lt (hs : p.submissions[i]? = some s) {stage : Stage}
    (h : stage.weight < s.stage.weight) : (p.setStage i s stage).weight < p.weight := by
  have := weight_setStage hs stage
  omega

theorem setWorker_lt (hw : p.workers[k]? = some w) {w' : Runner} (h : w'.weight < w.weight) :
    (p.setWorker k w').weight < p.weight := by
  have := weight_setWorker hw w'
  omega

theorem setStopper_lt (hx : p.stops[j]? = some x) {x' : Stopper} (h : x'.weight < x.weight) :
    (p.setStopper j x').weight < p.weight := by
  have := weight_setStopper hx x'
  omega

end Sums

/-- The steps of what is under way. -/
def Inner : Act → Prop
  | .submit _ | .stop => False
  | .cancel _ | .submission _ _ | .work _ | .stopper _ => True

theorem Moves.weight (hm : Moves p a q) (ha : Inner a) : q = p ∨ q.weight < p.weight := by
  cases hm with
  | rest => exact Or.inl rfl
  | arrive => exact ha.elim
  | ask => exact ha.elim
  | @cancel i s hs =>
    cases hc : s.cancelled with
    | true =>
      left
      have hsame : ({ s with cancelled := true } : Submission) = s := by rw [← hc]
      rw [hsame, (set_eq_self_iff hs).mpr rfl]
    | false =>
      right
      have hsum := sum_map_set Submission.weight hs { s with cancelled := true }
      have hold : s.weight = s.stage.weight + 1 := by simp [Submission.weight, hc]
      have hnew : ({ s with cancelled := true } : Submission).weight = s.stage.weight := rfl
      simp only [Pool.weight]
      omega
  | refuse hs hstage => exact Or.inr (setStage_lt hs (by rw [hstage]; decide))
  | pass hs hstage => exact Or.inr (setStage_lt hs (by rw [hstage]; decide))
  | count hs hstage => exact Or.inr (setStage_lt hs (by rw [hstage]; decide))
  | panic hs hstage => exact Or.inr (setStage_lt hs (by rw [hstage]; decide))
  | @handOver i k s hs hstage _ hw =>
    right
    have hsent := weight_setStage hs (.returned .accepted)
    have hw' : (p.setStage i s (.returned .accepted)).workers[k]? = some .waiting := hw
    have htaken := weight_setWorker hw' (.received i)
    rw [hstage] at hsent
    simp only [Stage.weight, Runner.weight] at hsent htaken
    omega
  | @enqueue i _ s hs hstage =>
    right
    have hsent := weight_setStage hs (.returned .accepted)
    rw [hstage] at hsent
    simp only [Stage.weight, Pool.weight, setStage, List.length_append, List.length_singleton]
      at hsent ⊢
    omega
  | giveUp hs hstage => exact Or.inr (setStage_lt hs (by simp [hstage, Stage.weight]))
  | withdraw hs hstage => exact Or.inr (setStage_lt hs (by simp [hstage, Stage.weight]))
  | @receive k task w tasks hw hidle htasks =>
    right
    have htaken := sum_map_set Runner.weight hw (.received task)
    have hpos : 1 ≤ w.weight := by rcases hidle with rfl | rfl <;> decide
    have hreceived : (Runner.received task).weight = 6 := rfl
    simp only [Pool.weight, setWorker, htasks, List.length_cons]
    omega
  | exit hw hidle =>
    exact Or.inr (setWorker_lt hw (by rcases hidle with rfl | rfl <;> decide))
  | @park k w hw hidle =>
    rcases hidle with rfl | rfl
    · exact Or.inr (setWorker_lt hw (by decide))
    · left
      rw [setWorker, (set_eq_self_iff hw).mpr rfl]
  | uncount hw => exact Or.inr (setWorker_lt hw (by simp [Runner.weight]))
  | start hw => exact Or.inr (setWorker_lt hw (by simp [Runner.weight]))
  | execute hw => exact Or.inr (setWorker_lt hw (by simp [Runner.weight]))
  | finish hw => exact Or.inr (setWorker_lt hw (by decide))
  | enter hx => exact Or.inr (setStopper_lt hx (by decide))
  | skip hx => exact Or.inr (setStopper_lt hx (by decide))
  | mark hx => exact Or.inr (setStopper_lt hx (by decide))
  | closeTwice hx => exact Or.inr (setStopper_lt hx (by decide))
  | close hx => exact Or.inr (setStopper_lt hx (by decide))
  | leave hx => exact Or.inr (setStopper_lt hx (by decide))
  | drained hx => exact Or.inr (setStopper_lt hx (by decide))

theorem act_weight (p : Pool) (a : Act) (ha : Inner a) :
    p.act a = p ∨ (p.act a).weight < p.weight :=
  (act_moves a).weight ha

/-! ## Stopping is never stuck -/

/-- The call of `Stop` that runs the `sync.Once` is inside, and the channel is closed when it
leaves. -/
structure Latched (p : Pool) : Prop where
  held : ∀ j, p.once = .running j → ∃ x, p.stops[j]? = some x ∧ x.Inside
  shut : p.once = .done ∨ .leaving ∈ p.stops ∨ .draining ∈ p.stops → p.closed = true

section Latched
variable {j : ℕ} {x y : Stopper}

theorem held_set (h : Latched p) (hx : p.stops[j]? = some y) (hin : y.Inside → x.Inside) :
    ∀ i, p.once = .running i → ∃ z, (p.stops.set j x)[i]? = some z ∧ z.Inside := by
  intro i hi
  obtain ⟨z, hz, hinside⟩ := h.held i hi
  rw [getElem?_set_of_some hx]
  split_ifs with hji
  · subst hji
    obtain rfl := Option.some.inj (hx.symm.trans hz)
    exact ⟨x, rfl, hin hinside⟩
  · exact ⟨z, hz, hinside⟩

theorem shut_set (h : Latched p) (hleaving : x ≠ .leaving) (hdraining : x ≠ .draining) :
    p.once = .done ∨ .leaving ∈ p.stops.set j x ∨ .draining ∈ p.stops.set j x →
      p.closed = true := by
  rintro (hdone | hmem | hmem)
  · exact h.shut (Or.inl hdone)
  · exact h.shut (Or.inr (Or.inl (mem_of_mem_set hmem hleaving.symm)))
  · exact h.shut (Or.inr (Or.inr (mem_of_mem_set hmem hdraining.symm)))

theorem Latched.moves (h : Latched p) (hs : StoppedOnce p) (hm : Moves p a q) : Latched q := by
  cases hm with
  | ask =>
    refine ⟨fun j hj => ?_, fun hor => h.shut ?_⟩
    · obtain ⟨x, hx, hin⟩ := h.held j hj
      obtain ⟨hlt, -⟩ := List.getElem?_eq_some_iff.mp hx
      exact ⟨x, by rw [List.getElem?_append_left hlt, hx], hin⟩
    · simpa using hor
  | @enter j hx honce =>
    refine ⟨fun i hi => ?_, fun hor => ?_⟩
    · obtain rfl := Once.running.inj hi
      exact ⟨.marking, by rw [setStopper, getElem?_set_of_some hx, if_pos rfl], Or.inl rfl⟩
    · rcases hor with hdone | hmem | hmem
      · cases hdone
      · exact h.shut (Or.inr (Or.inl (mem_of_mem_set hmem nofun)))
      · exact h.shut (Or.inr (Or.inr (mem_of_mem_set hmem nofun)))
  | skip hx honce =>
    refine ⟨fun i hi => ?_, fun _ => h.shut (Or.inl honce)⟩
    exact absurd (honce.symm.trans hi) nofun
  | mark hx => exact ⟨held_set h hx (fun _ => Or.inr (Or.inl rfl)), shut_set h nofun nofun⟩
  | closeTwice hx hclosed =>
    rw [hs.open_of_closing hx] at hclosed
    cases hclosed
  | close hx => exact ⟨held_set h hx (fun _ => Or.inr (Or.inr rfl)), fun _ => rfl⟩
  | leave hx => exact ⟨nofun, fun _ => h.shut (Or.inr (Or.inl (List.mem_of_getElem? hx)))⟩
  | drained hx =>
    refine ⟨held_set h hx (fun hin => ?_), shut_set h nofun nofun⟩
    exact absurd hin (not_inside (Or.inr (Or.inl rfl)))
  | _ => exact ⟨h.held, h.shut⟩

theorem Latched.act (h : Latched p) (hc : Consistent p) (a : Act) : Latched (p.act a) :=
  h.moves hc.stops (act_moves a)

theorem latched_started (config : PoolConfig) : Latched (started config) :=
  ⟨nofun, by simp [started]⟩

theorem ne_of_stops (hx : p.stops[j]? = some x) (hq : q.stops = p.stops.set j y) (hne : y ≠ x) :
    q ≠ p := by
  rintro rfl
  exact hne ((set_eq_self_iff hx).mp hq.symm)

theorem ne_of_workers {k : ℕ} {w w' : Runner} (hw : p.workers[k]? = some w)
    (hq : q.workers = p.workers.set k w') (hne : w' ≠ w) : q ≠ p := by
  rintro rfl
  exact hne ((set_eq_self_iff hw).mp hq.symm)

/-- A worker of a closed pool goes on until it exits. -/
theorem work_ne {k : ℕ} {w : Runner} (hw : p.workers[k]? = some w) (hne : w ≠ .exited)
    (hclosed : p.closed = true) : p.act (.work k) ≠ p := by
  have hreceive : w = .idle ∨ w = .waiting → p.receive k ≠ p := by
    intro hidle
    unfold receive
    cases htasks : p.tasks with
    | cons task tasks => exact ne_of_workers hw rfl (by rcases hidle with rfl | rfl <;> simp)
    | nil =>
      dsimp only
      rw [if_pos hclosed]
      exact ne_of_workers hw rfl hne.symm
  simp only [act, run, hw]
  cases w with
  | idle => exact hreceive (Or.inl rfl)
  | waiting => exact hreceive (Or.inr rfl)
  | received task => exact ne_of_workers hw rfl (by simp)
  | counted task => exact ne_of_workers hw rfl (by simp)
  | running task => exact ne_of_workers hw rfl (by simp)
  | ran => exact ne_of_workers hw rfl (by simp)
  | exited => exact absurd rfl hne

/-- The only call of `Stop` goes on, or a worker it waits for does. -/
theorem stop_goes_on (hc : Consistent p) (hl : Latched p) (hx : p.stops = [x])
    (hne : x ≠ .returned) : p.act (.stopper 0) ≠ p ∨ ∃ k, p.act (.work k) ≠ p := by
  have hx0 : p.stops[0]? = some x := by rw [hx]; rfl
  have hmem : x ∈ p.stops := List.mem_of_getElem? hx0
  simp only [act, stop, hx0]
  cases x with
  | entering =>
    left
    cases honce : p.once with
    | fresh => exact ne_of_stops hx0 rfl (by simp)
    | running j =>
      obtain ⟨z, hz, hin⟩ := hl.held j honce
      rw [hx, List.getElem?_singleton] at hz
      split_ifs at hz
      obtain rfl := Option.some.inj hz
      exact absurd hin (not_inside (Or.inl rfl))
    | done => exact ne_of_stops hx0 rfl (by simp)
  | marking => exact Or.inl (ne_of_stops hx0 rfl (by simp))
  | closing =>
    left
    dsimp only
    rw [if_neg (by rw [hc.stops.open_of_closing hx0]; decide)]
    exact ne_of_stops hx0 rfl (by simp)
  | leaving => exact Or.inl (ne_of_stops hx0 rfl (by simp))
  | draining =>
    by_cases hall : ∀ w ∈ p.workers, w = .exited
    · left
      dsimp only
      rw [if_pos (by simpa using hall)]
      exact ne_of_stops hx0 rfl (by simp)
    · right
      push Not at hall
      obtain ⟨w, hw, hworks⟩ := hall
      obtain ⟨k, hk⟩ := List.mem_iff_getElem?.mp hw
      exact ⟨k, work_ne hk hworks (hl.shut (Or.inr (Or.inr hmem)))⟩
  | returned => exact absurd rfl hne
  | panicked => exact absurd hmem hc.stops.unpanicked

end Latched

end Pool
end RabbitmqLite.Worker
