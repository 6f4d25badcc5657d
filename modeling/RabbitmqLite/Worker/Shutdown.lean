import RabbitmqLite.Worker.Pool

/-! # Stopping a pool

`Submit` and `TrySubmit` read the stopped flag and send afterwards; `Stop` sets
the flag and closes the channel. A submission that has read the flag before it
is set and has not sent yet when the channel is closed sends on the closed
channel and panics. Where no submission is caught in between, none panics, and
every accepted task is executed exactly once before `Stop` returns.
-/

namespace RabbitmqLite.Worker
open Atomic Collections

/-- The call is inside the `sync.Once`. -/
def Stopper.Inside (x : Stopper) : Prop := x = .marking ∨ x = .closing ∨ x = .leaving

/-- The submission has passed its check of the flag and has not sent yet. -/
def Stage.Passed (x : Stage) : Prop := x = .counting ∨ x = .selecting

instance (x : Stage) : Decidable x.Passed := by unfold Stage.Passed; infer_instance

/-- `Submit` gives up when its context has ended, `TrySubmit` when the channel is full. -/
def Submission.GaveUp (s : Submission) (a : Answer) : Prop :=
  a = .cancelled ∧ s.kind = .submit ∧ s.cancelled = true ∨ a = .saturated ∧ s.kind = .trySubmit

/-- What a submission may return, given the stopped flag. -/
def Submission.Answers (stopped : Bool) (s : Submission) : Prop :=
  match s.stage with
  | .withdrawing a => s.GaveUp a
  | .returned a => a = .accepted ∨ a = .stopped ∧ stopped = true ∨ s.GaveUp a
  | _ => True

/-- The task a worker has taken from the channel and not executed yet. -/
def Runner.carried : Runner → List ℕ
  | .received task => [task]
  | .counted task => [task]
  | .running task => [task]
  | _ => []

/-- The steps of a submission and of the workers. -/
def Act.Helps (i : ℕ) : Act → Prop
  | .submission m _ => m = i
  | .work _ => True
  | _ => False

def Act.Submits : Act → Prop
  | .submission _ _ => True
  | _ => False

namespace Pool
variable {p q : Pool} {a : Act} {i j k : ℕ}

/-! ## The channel and the workers -/

/-- A worker exits only when nothing is left in the closed channel. -/
structure Channelled (p : Pool) : Prop where
  staffed : 0 < p.workers.length
  bounded : p.tasks.length ≤ p.capacity
  drained : .exited ∈ p.workers → p.closed = true ∧ p.tasks = []

theorem Channelled.of_worker (h : Channelled p) {w : Runner} (hw : q.workers = p.workers.set k w)
    (hne : Runner.exited ≠ w) (hc : q.capacity = p.capacity) (ht : q.tasks = p.tasks)
    (hclosed : q.closed = p.closed) : Channelled q := by
  refine ⟨?_, ?_, fun he => ?_⟩
  · rw [hw, List.length_set]
    exact h.staffed
  · rw [ht, hc]
    exact h.bounded
  · rw [hw] at he
    rw [hclosed, ht]
    exact h.drained (mem_of_mem_set he hne)

theorem Channelled.moves (h : Channelled p) (hm : Moves p a q) : Channelled q := by
  cases hm with
  | handOver => exact h.of_worker rfl nofun rfl rfl rfl
  | enqueue _ _ hclosed hroom =>
    refine ⟨h.staffed, ?_, fun he => ?_⟩
    · change (p.tasks ++ [_]).length ≤ p.capacity
      rw [List.length_append, List.length_singleton]
      exact hroom
    · exact absurd (h.drained he).1 (by rw [hclosed]; decide)
  | receive _ _ htasks =>
    refine ⟨?_, ?_, fun he => ?_⟩
    · change 0 < (p.workers.set _ _).length
      rw [List.length_set]
      exact h.staffed
    · have hb := h.bounded
      rw [htasks, List.length_cons] at hb
      exact Nat.le_of_succ_le hb
    · have hempty := (h.drained (mem_of_mem_set he nofun)).2
      exact absurd hempty (by rw [htasks]; exact List.cons_ne_nil _ _)
  | exit _ _ htasks hclosed =>
    refine ⟨?_, h.bounded, fun _ => ⟨hclosed, htasks⟩⟩
    change 0 < (p.workers.set _ _).length
    rw [List.length_set]
    exact h.staffed
  | park => exact h.of_worker rfl nofun rfl rfl rfl
  | uncount => exact h.of_worker rfl nofun rfl rfl rfl
  | start => exact h.of_worker rfl nofun rfl rfl rfl
  | execute => exact h.of_worker rfl nofun rfl rfl rfl
  | finish => exact h.of_worker rfl nofun rfl rfl rfl
  | close => exact ⟨h.staffed, h.bounded, fun he => ⟨rfl, (h.drained he).2⟩⟩
  | _ => exact ⟨h.staffed, h.bounded, h.drained⟩

/-! ## The calls of `Stop` -/

/-- One call of `Stop` at most is inside the `sync.Once`, and it closes the channel after the
flag is set. -/
structure StoppedOnce (p : Pool) : Prop where
  inside : ∀ j x, p.stops[j]? = some x → x.Inside → p.once = .running j
  shut : p.closed = true →
    p.once = .done ∨ ∃ j, p.once = .running j ∧ p.stops[j]? = some .leaving
  marked : .closing ∈ p.stops → p.stopped = true
  flagged : p.closed = true → p.stopped = true
  ended : .returned ∈ p.stops → ∀ w ∈ p.workers, w = .exited
  unpanicked : .panicked ∉ p.stops

/-- Once `Stop` has returned no worker moves. -/
theorem StoppedOnce.of_worker (h : StoppedOnce p) {w : Runner} (hw : p.workers[k]? = some w)
    (hne : w ≠ .exited) (honce : q.once = p.once) (hstops : q.stops = p.stops)
    (hclosed : q.closed = p.closed) (hstopped : q.stopped = p.stopped) : StoppedOnce q := by
  refine ⟨?_, ?_, ?_, ?_, fun he => ?_, ?_⟩
  · rw [honce, hstops]
    exact h.inside
  · rw [honce, hstops, hclosed]
    exact h.shut
  · rw [hstops, hstopped]
    exact h.marked
  · rw [hclosed, hstopped]
    exact h.flagged
  · rw [hstops] at he
    exact absurd (h.ended he w (List.mem_of_getElem? hw)) hne
  · rw [hstops]
    exact h.unpanicked

theorem ne_exited {w : Runner} (h : w = .idle ∨ w = .waiting) : w ≠ .exited := by
  rcases h with rfl | rfl <;> exact nofun

section Stops
variable {x y : Stopper} {once : Once}

/-- One call moves; it and the others are inside as the `sync.Once` says. -/
theorem inside_set (hx : p.stops[j]? = some y) (hself : x.Inside → once = .running j)
    (hothers : ∀ i z, j ≠ i → p.stops[i]? = some z → z.Inside → once = .running i) :
    ∀ i z, (p.stops.set j x)[i]? = some z → z.Inside → once = .running i := by
  intro i z hz hin
  rw [getElem?_set_of_some hx] at hz
  split_ifs at hz with hj
  · subst hj
    rw [← Option.some.inj hz] at hin
    exact hself hin
  · exact hothers i z hj hz hin

theorem leaving_set (hx : p.stops[j]? = some y) (hne : y ≠ .leaving)
    (h : ∃ i, p.once = .running i ∧ p.stops[i]? = some .leaving) :
    ∃ i, p.once = .running i ∧ (p.stops.set j x)[i]? = some .leaving := by
  obtain ⟨i, hi, hl⟩ := h
  refine ⟨i, hi, ?_⟩
  rw [getElem?_set_of_some hx, if_neg, hl]
  rintro rfl
  exact hne (Option.some.inj (hx.symm.trans hl))

theorem not_inside (h : x = .entering ∨ x = .draining ∨ x = .returned) : ¬ x.Inside := by
  rcases h with rfl | rfl | rfl <;> simp [Stopper.Inside]

/-- The first call that enters finds the channel open. -/
theorem StoppedOnce.open_of_fresh (h : StoppedOnce p) (honce : p.once = .fresh) :
    p.closed = false := by
  rw [← Bool.not_eq_true]
  intro hclosed
  rcases h.shut hclosed with hdone | ⟨i, hrun, -⟩
  · rw [honce] at hdone
    cases hdone
  · rw [honce] at hrun
    cases hrun

/-- The call that is about to close the channel finds it open. -/
theorem StoppedOnce.open_of_closing (h : StoppedOnce p) (hx : p.stops[j]? = some .closing) :
    p.closed = false := by
  rw [← Bool.not_eq_true]
  intro hclosed
  have hrun := h.inside j .closing hx (Or.inr (Or.inl rfl))
  rcases h.shut hclosed with hdone | ⟨i, hrun', hl⟩
  · rw [hrun] at hdone
    cases hdone
  · rw [hrun] at hrun'
    cases hrun'
    rw [hx] at hl
    cases hl

end Stops

theorem StoppedOnce.moves (h : StoppedOnce p) (hm : Moves p a q) : StoppedOnce q := by
  cases hm with
  | handOver _ _ _ hw => exact h.of_worker hw nofun rfl rfl rfl rfl
  | receive hw hidle => exact h.of_worker hw (ne_exited hidle) rfl rfl rfl rfl
  | exit hw hidle => exact h.of_worker hw (ne_exited hidle) rfl rfl rfl rfl
  | park hw hidle => exact h.of_worker hw (ne_exited hidle) rfl rfl rfl rfl
  | uncount hw => exact h.of_worker hw nofun rfl rfl rfl rfl
  | start hw => exact h.of_worker hw nofun rfl rfl rfl rfl
  | execute hw => exact h.of_worker hw nofun rfl rfl rfl rfl
  | finish hw => exact h.of_worker hw nofun rfl rfl rfl rfl
  | ask =>
    have hold : ∀ x, x ∈ p.stops ++ [Stopper.entering] → x ≠ .entering → x ∈ p.stops := by
      intro x hx hne
      exact (List.mem_append.mp hx).resolve_right (fun hx => hne (List.mem_singleton.mp hx))
    refine ⟨fun j x hx hin => ?_, fun hclosed => ?_, fun hx => h.marked (hold _ hx nofun),
      h.flagged, fun hx => h.ended (hold _ hx nofun), fun hx => h.unpanicked (hold _ hx nofun)⟩
    · rcases getElem?_snoc hx with hx | ⟨-, rfl⟩
      · exact h.inside j x hx hin
      · exact absurd hin (not_inside (Or.inl rfl))
    · refine (h.shut hclosed).imp id ?_
      rintro ⟨i, hi, hl⟩
      obtain ⟨hlt, -⟩ := List.getElem?_eq_some_iff.mp hl
      exact ⟨i, hi, by rw [List.getElem?_append_left hlt, hl]⟩
  | enter hx honce =>
    refine ⟨inside_set hx (fun _ => rfl) (fun i z _ hz hin => ?_), fun hclosed => ?_,
      fun hy => h.marked (mem_of_mem_set hy nofun), h.flagged,
      fun hy => h.ended (mem_of_mem_set hy nofun), fun hy => h.unpanicked (mem_of_mem_set hy nofun)⟩
    · have hrun := h.inside i z hz hin
      rw [honce] at hrun
      cases hrun
    · exact absurd hclosed (by rw [Bool.not_eq_true]; exact h.open_of_fresh honce)
  | skip hx honce =>
    exact ⟨inside_set hx (fun hin => absurd hin (not_inside (Or.inr (Or.inl rfl))))
        (fun i z _ => h.inside i z), fun _ => Or.inl honce,
      fun hy => h.marked (mem_of_mem_set hy nofun), h.flagged,
      fun hy => h.ended (mem_of_mem_set hy nofun), fun hy => h.unpanicked (mem_of_mem_set hy nofun)⟩
  | @mark j hx =>
    have hrun := h.inside j .marking hx (Or.inl rfl)
    exact ⟨inside_set hx (fun _ => hrun) (fun i z _ => h.inside i z),
      fun hclosed => (h.shut hclosed).imp id (leaving_set hx nofun), fun _ => rfl, fun _ => rfl,
      fun hy => h.ended (mem_of_mem_set hy nofun), fun hy => h.unpanicked (mem_of_mem_set hy nofun)⟩
  | closeTwice hx hclosed =>
    exact absurd hclosed (by rw [Bool.not_eq_true]; exact h.open_of_closing hx)
  | @close j hx _ =>
    have hrun := h.inside j .closing hx (Or.inr (Or.inl rfl))
    refine ⟨inside_set hx (fun _ => hrun) (fun i z _ => h.inside i z), fun _ => ?_,
      fun hy => h.marked (mem_of_mem_set hy nofun), fun _ => h.marked (List.mem_of_getElem? hx),
      fun hy => h.ended (mem_of_mem_set hy nofun), fun hy => h.unpanicked (mem_of_mem_set hy nofun)⟩
    refine Or.inr ⟨j, hrun, ?_⟩
    change (p.stops.set j .leaving)[j]? = some .leaving
    rw [getElem?_set_of_some hx, if_pos rfl]
  | @leave j hx =>
    have hrun := h.inside j .leaving hx (Or.inr (Or.inr rfl))
    refine ⟨inside_set hx (fun hin => absurd hin (not_inside (Or.inr (Or.inl rfl))))
        (fun i z hne hz hin => ?_), fun _ => Or.inl rfl,
      fun hy => h.marked (mem_of_mem_set hy nofun), h.flagged,
      fun hy => h.ended (mem_of_mem_set hy nofun), fun hy => h.unpanicked (mem_of_mem_set hy nofun)⟩
    have hrun' := h.inside i z hz hin
    rw [hrun] at hrun'
    exact absurd (Once.running.inj hrun') hne
  | drained hx hexited =>
    exact ⟨inside_set hx (fun hin => absurd hin (not_inside (Or.inr (Or.inr rfl))))
        (fun i z _ => h.inside i z),
      fun hclosed => (h.shut hclosed).imp id (leaving_set hx nofun),
      fun hy => h.marked (mem_of_mem_set hy nofun), h.flagged, fun _ => hexited,
      fun hy => h.unpanicked (mem_of_mem_set hy nofun)⟩
  | _ => exact ⟨h.inside, h.shut, h.marked, h.flagged, h.ended, h.unpanicked⟩

/-! ## The answers -/

def Answering (p : Pool) : Prop := ∀ s ∈ p.submissions, s.Answers p.stopped

theorem answers_cancelled {s : Submission} {stopped : Bool} (h : s.Answers stopped) :
    ({ s with cancelled := true } : Submission).Answers stopped := by
  have hgave : ∀ a, s.GaveUp a → ({ s with cancelled := true } : Submission).GaveUp a :=
    fun a ha => ha.imp (fun h => ⟨h.1, h.2.1, rfl⟩) id
  rcases s with ⟨kind, cancelled, stage⟩
  cases stage with
  | withdrawing a => exact hgave a h
  | returned a => exact h.imp id (Or.imp id (hgave a))
  | _ => trivial

theorem answers_stopped {s : Submission} {stopped : Bool} (h : s.Answers stopped) :
    s.Answers true := by
  rcases s with ⟨kind, cancelled, stage⟩
  cases stage with
  | returned a => exact h.imp id (Or.imp (fun h => ⟨h.1, rfl⟩) id)
  | _ => exact h

theorem Answering.of_submission (h : Answering p) {s : Submission}
    (hs : q.submissions = p.submissions.set i s) (hstopped : q.stopped = p.stopped)
    (hanswers : s.Answers p.stopped) : Answering q := by
  intro r hr
  rw [hs] at hr
  rw [hstopped]
  rcases List.mem_or_eq_of_mem_set hr with hr | rfl
  · exact h r hr
  · exact hanswers

theorem Answering.moves (h : Answering p) (hm : Moves p a q) : Answering q := by
  cases hm with
  | arrive kind =>
    intro s hs
    rcases List.mem_append.mp hs with hs | hs
    · exact h s hs
    · rw [List.mem_singleton.mp hs]
      trivial
  | cancel hs => exact h.of_submission rfl rfl (answers_cancelled (h _ (List.mem_of_getElem? hs)))
  | refuse _ _ hstopped => exact h.of_submission rfl rfl (Or.inr (Or.inl ⟨rfl, hstopped⟩))
  | pass => exact h.of_submission rfl rfl trivial
  | count => exact h.of_submission rfl rfl trivial
  | panic => exact h.of_submission rfl rfl trivial
  | handOver => exact h.of_submission rfl rfl (Or.inl rfl)
  | enqueue => exact h.of_submission rfl rfl (Or.inl rfl)
  | giveUp _ _ ha => exact h.of_submission rfl rfl ha
  | withdraw hs hstage =>
    have hanswers := h _ (List.mem_of_getElem? hs)
    rw [Submission.Answers, hstage] at hanswers
    exact h.of_submission rfl rfl (Or.inr (Or.inr hanswers))
  | mark => exact fun s hs => answers_stopped (h s hs)
  | _ => exact h

/-! ## Each accepted task once -/

/-- The submission has returned nil. -/
def Accepted (p : Pool) (i : ℕ) : Prop :=
  (p.submissions[i]?).map Submission.stage = some (.returned .accepted)

instance (p : Pool) (i : ℕ) : Decidable (p.Accepted i) := by unfold Accepted; infer_instance

/-- How often a task is in the channel, with a worker or executed. -/
def share (p : Pool) (i : ℕ) : ℕ :=
  p.tasks.count i + (p.workers.flatMap Runner.carried).count i + p.executed.count i

def Shared (p : Pool) : Prop := ∀ i, p.share i = if p.Accepted i then 1 else 0

theorem accepted_set {s r : Submission} (hs : p.submissions[i]? = some s)
    (hq : q.submissions = p.submissions.set i r) (m : ℕ) :
    q.Accepted m ↔ if i = m then r.stage = .returned .accepted else p.Accepted m := by
  rw [Accepted, hq, getElem?_set_of_some hs]
  split_ifs with hm
  · simp
  · rfl

theorem Shared.congr (h : Shared p) (hshare : ∀ m, q.share m = p.share m)
    (haccepted : ∀ m, q.Accepted m ↔ p.Accepted m) : Shared q := by
  intro m
  rw [hshare, h m]
  simp only [haccepted]

theorem Shared.of_submission (h : Shared p) {s r : Submission} (hs : p.submissions[i]? = some s)
    (hq : q.submissions = p.submissions.set i r)
    (hstage : r.stage = .returned .accepted ↔ s.stage = .returned .accepted)
    (hshare : ∀ m, q.share m = p.share m) : Shared q := by
  refine h.congr hshare (fun m => ?_)
  rw [accepted_set hs hq]
  split_ifs with him
  · rw [hstage, ← him, Accepted, hs, Option.map_some, Option.some_inj]
  · rfl

/-- A submission that sends is accepted, and its task is passed on. -/
theorem Shared.of_accept (h : Shared p) {s r : Submission} (hs : p.submissions[i]? = some s)
    (hstage : s.stage = .selecting) (hq : q.submissions = p.submissions.set i r)
    (hr : r.stage = .returned .accepted) (hshare : ∀ m, q.share m = p.share m + [i].count m) :
    Shared q := by
  intro m
  have hold : ¬ p.Accepted i := by
    rw [Accepted, hs, Option.map_some, hstage]
    exact nofun
  have hm := accepted_set hs hq m
  rw [hshare, h m]
  by_cases him : i = m
  · subst him
    rw [if_pos rfl] at hm
    rw [if_neg hold, if_pos (hm.mpr hr), List.count_singleton_self]
  · rw [if_neg him] at hm
    simp only [hm, List.count_singleton, beq_iff_eq, if_neg him, Nat.add_zero]

theorem count_carried_set {w : Runner} (hw : p.workers[k]? = some w) (w' : Runner) (m : ℕ) :
    ((p.workers.set k w').flatMap Runner.carried).count m + w.carried.count m =
      (p.workers.flatMap Runner.carried).count m + w'.carried.count m :=
  countP_flatMap_set Runner.carried (· == m) hw w'

/-- A worker moves on with what it has. -/
theorem Shared.of_worker (h : Shared p) {w w' : Runner} (hw : p.workers[k]? = some w)
    (hq : q.workers = p.workers.set k w') (hcarried : w'.carried = w.carried)
    (ht : q.tasks = p.tasks) (he : q.executed = p.executed)
    (hs : q.submissions = p.submissions) : Shared q := by
  refine h.congr (fun m => ?_) (fun m => by rw [Accepted, hs, Accepted])
  have hc := count_carried_set hw w' m
  rw [hcarried] at hc
  rw [share, share, hq, ht, he]
  omega

theorem Shared.moves (h : Shared p) (hanswers : Answering p) (hm : Moves p a q) : Shared q := by
  cases hm with
  | arrive kind =>
    refine h.congr (fun _ => rfl) (fun m => ?_)
    rw [Accepted, Accepted]
    rcases Nat.lt_or_ge m p.submissions.length with hlt | hge
    · rw [List.getElem?_append_left hlt]
    · rw [List.getElem?_append_right hge, List.getElem?_eq_none hge, List.getElem?_singleton]
      split_ifs <;> simp
  | cancel hs => exact h.of_submission hs rfl Iff.rfl (fun _ => rfl)
  | refuse hs hstage => exact h.of_submission hs rfl (by simp [hstage]) (fun _ => rfl)
  | pass hs hstage => exact h.of_submission hs rfl (by simp [hstage]) (fun _ => rfl)
  | count hs hstage => exact h.of_submission hs rfl (by simp [hstage]) (fun _ => rfl)
  | panic hs hstage => exact h.of_submission hs rfl (by simp [hstage]) (fun _ => rfl)
  | @handOver i k s hs hstage _ hw =>
    refine h.of_accept hs hstage rfl rfl (fun m => ?_)
    have hc := count_carried_set hw (.received i) m
    change p.tasks.count m + ((p.workers.set k (.received i)).flatMap Runner.carried).count m +
      p.executed.count m = _
    simp only [Runner.carried, List.count_nil] at hc
    rw [share]
    omega
  | @enqueue i _ s hs hstage =>
    refine h.of_accept hs hstage rfl rfl (fun m => ?_)
    change (p.tasks ++ [i]).count m + (p.workers.flatMap Runner.carried).count m +
      p.executed.count m = _
    rw [List.count_append, share]
    omega
  | giveUp hs hstage => exact h.of_submission hs rfl (by simp [hstage]) (fun _ => rfl)
  | @withdraw i _ s a hs hstage =>
    -- only an attempt that gave up is withdrawn, and that is no acceptance
    have hgave := hanswers s (List.mem_of_getElem? hs)
    rw [Submission.Answers, hstage] at hgave
    refine h.of_submission hs rfl ?_ (fun _ => rfl)
    rcases hgave with ⟨rfl, -⟩ | ⟨rfl, -⟩ <;> simp [hstage]
  | @receive k task w tasks hw hidle htasks =>
    refine h.congr (fun m => ?_) (fun _ => Iff.rfl)
    have hc := count_carried_set hw (.received task) m
    have hempty : w.carried = [] := by rcases hidle with rfl | rfl <;> rfl
    change tasks.count m + ((p.workers.set k (.received task)).flatMap Runner.carried).count m +
      p.executed.count m = _
    rw [hempty, Runner.carried, List.count_nil, List.count_singleton] at hc
    rw [share, htasks, List.count_cons]
    omega
  | exit hw hidle =>
    refine h.of_worker hw rfl ?_ rfl rfl rfl
    rcases hidle with rfl | rfl <;> rfl
  | park hw hidle =>
    refine h.of_worker hw rfl ?_ rfl rfl rfl
    rcases hidle with rfl | rfl <;> rfl
  | uncount hw => exact h.of_worker hw rfl rfl rfl rfl rfl
  | start hw => exact h.of_worker hw rfl rfl rfl rfl rfl
  | @execute k task hw =>
    refine h.congr (fun m => ?_) (fun _ => Iff.rfl)
    have hc := count_carried_set hw .ran m
    change p.tasks.count m + ((p.workers.set k .ran).flatMap Runner.carried).count m +
      (p.executed ++ [task]).count m = _
    simp only [Runner.carried, List.count_nil] at hc
    rw [share, List.count_append]
    omega
  | finish hw => exact h.of_worker hw rfl rfl rfl rfl rfl
  | _ => exact h

/-! ## Runs -/

/-- What holds in every state of a pool, whatever the order of the steps. -/
structure Consistent (p : Pool) : Prop where
  channelled : Channelled p
  stops : StoppedOnce p
  answering : Answering p
  shared : Shared p

theorem Consistent.act (h : Consistent p) (a : Act) : Consistent (p.act a) where
  channelled := h.channelled.moves (act_moves a)
  stops := h.stops.moves (act_moves a)
  answering := h.answering.moves (act_moves a)
  shared := h.shared.moves h.answering (act_moves a)

theorem consistent_started (config : PoolConfig) : Consistent (started config) where
  channelled := by
    refine ⟨?_, Nat.zero_le _, fun he => ?_⟩
    · simp only [started, List.length_replicate, PoolConfig.withDefaults]
      split_ifs <;> omega
    · cases List.eq_of_mem_replicate he
  stops := by
    refine ⟨?_, nofun, nofun, nofun, nofun, nofun⟩
    intro j x hx
    simp [started] at hx
  answering := nofun
  shared := by
    intro i
    have hnone : ∀ n, (List.replicate n Runner.idle).flatMap Runner.carried = [] := by
      intro n
      simp [List.flatMap_eq_nil_iff, Runner.carried]
    simp [share, Accepted, started, hnone]

/-! ## Safe states -/

/-- Nothing has panicked, and nothing will on the closed channel. -/
structure Safe (p : Pool) : Prop where
  unpanicked : ∀ s ∈ p.submissions, s.stage ≠ .panicked
  settled : p.closed = true → ∀ s ∈ p.submissions, ¬ s.stage.Passed

/-- No submission is between its check of the flag and its send when the channel is closed. -/
def Quiet (p : Pool) : Act → Prop
  | .stopper j => p.stops[j]? = some .closing → ∀ s ∈ p.submissions, ¬ s.stage.Passed
  | _ => True

instance (p : Pool) (a : Act) : Decidable (Quiet p a) := by
  unfold Quiet
  split <;> infer_instance

theorem Safe.of_submission (h : Safe p) {r : Submission}
    (hs : q.submissions = p.submissions.set i r) (hclosed : q.closed = p.closed)
    (hr : r.stage ≠ .panicked) (hpassed : p.closed = true → ¬ r.stage.Passed) : Safe q := by
  refine ⟨fun s hmem => ?_, fun hc s hmem => ?_⟩
  · rw [hs] at hmem
    rcases List.mem_or_eq_of_mem_set hmem with hmem | rfl
    · exact h.unpanicked s hmem
    · exact hr
  · rw [hclosed] at hc
    rw [hs] at hmem
    rcases List.mem_or_eq_of_mem_set hmem with hmem | rfl
    · exact h.settled hc s hmem
    · exact hpassed hc

theorem Safe.moves (h : Safe p) (hc : StoppedOnce p) (hquiet : Quiet p a) (hm : Moves p a q) :
    Safe q := by
  cases hm with
  | arrive kind =>
    refine ⟨fun s hs => ?_, fun hclosed s hs => ?_⟩
    · rcases List.mem_append.mp hs with hs | hs
      · exact h.unpanicked s hs
      · rw [List.mem_singleton.mp hs]
        exact nofun
    · rcases List.mem_append.mp hs with hs | hs
      · exact h.settled hclosed s hs
      · rw [List.mem_singleton.mp hs]
        simp [Stage.Passed]
  | @cancel i s hs =>
    have hmem := List.mem_of_getElem? hs
    exact h.of_submission rfl rfl (h.unpanicked s hmem) (fun hclosed => h.settled hclosed s hmem)
  | refuse => exact h.of_submission rfl rfl nofun (fun _ => by simp [Stage.Passed])
  | pass _ _ hstopped =>
    refine h.of_submission rfl rfl nofun (fun hclosed => ?_)
    exact absurd (hc.flagged hclosed) (by rw [hstopped]; decide)
  | count hs hstage =>
    refine h.of_submission rfl rfl nofun (fun hclosed => ?_)
    exact absurd (Or.inl hstage) (h.settled hclosed _ (List.mem_of_getElem? hs))
  | panic hs hstage hclosed =>
    exact absurd (Or.inr hstage) (h.settled hclosed _ (List.mem_of_getElem? hs))
  | handOver => exact h.of_submission rfl rfl nofun (fun _ => by simp [Stage.Passed])
  | enqueue => exact h.of_submission rfl rfl nofun (fun _ => by simp [Stage.Passed])
  | giveUp => exact h.of_submission rfl rfl nofun (fun _ => by simp [Stage.Passed])
  | withdraw => exact h.of_submission rfl rfl nofun (fun _ => by simp [Stage.Passed])
  | close hx => exact ⟨h.unpanicked, fun _ => hquiet hx⟩
  | _ => exact ⟨h.unpanicked, h.settled⟩

/-- A step keeps the pool safe exactly if it does not close the channel on a submission. -/
theorem safe_act_iff (hc : Consistent p) (h : Safe p) (a : Act) : Safe (p.act a) ↔ Quiet p a := by
  refine ⟨fun hsafe => ?_, fun hquiet => h.moves hc.stops hquiet (act_moves a)⟩
  cases a with
  | stopper j =>
    intro hx
    have hact : p.act (.stopper j) = { p.setStopper j .leaving with closed := true } := by
      simp [act, stop, hx, hc.stops.open_of_closing hx]
    rw [hact] at hsafe
    exact hsafe.settled rfl
  | _ => trivial

theorem safe_started (config : PoolConfig) : Safe (started config) := ⟨nofun, nofun⟩

/-! ## Every submission returns -/

/-- Steps of the submission itself and of the workers make it return. -/
def Returns (p : Pool) (i : ℕ) : Prop :=
  ∃ more : List Act, (∀ a ∈ more, a.Helps i) ∧
    ∃ answer, ((after exec p more).submissions[i]?).map Submission.stage = some (.returned answer)

theorem Returns.step {a : Act} (ha : a.Helps i) (h : Returns (p.act a) i) : Returns p i := by
  obtain ⟨more, hmore, hanswer⟩ := h
  exact ⟨a :: more, List.forall_mem_cons.mpr ⟨ha, hmore⟩, hanswer⟩

theorem returns_of_returned {s : Submission} {answer : Answer} (hs : p.submissions[i]? = some s)
    (hstage : s.stage = .returned answer) : Returns p i :=
  ⟨[], nofun, answer, by rw [after_nil, hs, Option.map_some, hstage]⟩

theorem setStage_self {s : Submission} (hs : p.submissions[i]? = some s) (stage : Stage) :
    (p.setStage i s stage).submissions[i]? = some { s with stage := stage } := by
  rw [setStage, getElem?_set_of_some hs, if_pos rfl]

theorem setWorker_self {w : Runner} (hw : p.workers[k]? = some w) (w' : Runner) :
    (p.setWorker k w').workers[k]? = some w' := by
  rw [setWorker, getElem?_set_of_some hw, if_pos rfl]

theorem returns_of_withdrawing {s : Submission} {answer : Answer}
    (hs : p.submissions[i]? = some s) (hstage : s.stage = .withdrawing answer) : Returns p i := by
  refine Returns.step (a := .submission i .done) rfl ?_
  have hact : p.act (.submission i .done) =
      { p.setStage i s (.returned answer) with queued := p.queued - 1 } := by
    simp only [act, submission, hs, hstage]
  rw [hact]
  exact returns_of_returned (setStage_self hs _) rfl

/-- The submission is at its `select` and the channel is open. -/
structure Sending (p : Pool) (i : ℕ) (s : Submission) : Prop where
  found : p.submissions[i]? = some s
  stage : s.stage = .selecting
  opened : p.closed = false
  bounded : p.tasks.length ≤ p.capacity

theorem Sending.of_same {s : Submission} (h : Sending p i s) (hs : q.submissions = p.submissions)
    (hclosed : q.closed = p.closed) (ht : q.tasks = p.tasks) (hc : q.capacity = p.capacity) :
    Sending q i s :=
  ⟨by rw [hs, h.found], h.stage, by rw [hclosed, h.opened], by rw [ht, hc]; exact h.bounded⟩

section Sending
variable {s : Submission}

theorem Sending.act_eq (h : Sending p i s) (k : ℕ) :
    p.act (.submission i (.send k)) = p.select i s (.send k) := by
  simp only [act, submission, h.found, h.stage]

theorem Sending.returns_waiting (h : Sending p i s) (hw : p.workers[k]? = some .waiting) :
    Returns p i := by
  refine Returns.step (a := .submission i (.send k)) rfl ?_
  rw [h.act_eq, select, if_neg (by rw [h.opened]; decide), if_pos hw]
  exact returns_of_returned (setStage_self h.found _) rfl

theorem Sending.returns_room (h : Sending p i s) (hroom : p.tasks.length < p.capacity) :
    Returns p i := by
  by_cases hwaiting : .waiting ∈ p.workers
  · obtain ⟨k, hw⟩ := List.mem_iff_getElem?.mp hwaiting
    exact h.returns_waiting hw
  · refine Returns.step (a := .submission i (.send 0)) rfl ?_
    have hw : p.workers[0]? ≠ some .waiting := fun hw => hwaiting (List.mem_of_getElem? hw)
    rw [h.act_eq, select, if_neg (by rw [h.opened]; decide), if_neg hw, if_neg hwaiting,
      if_pos hroom]
    exact returns_of_returned (setStage_self h.found _) rfl

/-- A worker at the channel makes room in it or waits for the task. -/
theorem Sending.returns_idle (h : Sending p i s) (hw : p.workers[k]? = some .idle) :
    Returns p i := by
  refine Returns.step (a := .work k) trivial ?_
  have hact : p.act (.work k) = p.receive k := by simp only [act, run, hw]
  rw [hact, receive]
  cases htasks : p.tasks with
  | cons task tasks =>
    have hb := h.bounded
    rw [htasks, List.length_cons] at hb
    exact Sending.returns_room ⟨h.found, h.stage, h.opened, Nat.le_of_succ_le hb⟩ hb
  | nil =>
    dsimp only
    rw [if_neg (by rw [h.opened]; decide)]
    exact Sending.returns_waiting (h.of_same rfl rfl rfl rfl) (setWorker_self hw _)

theorem Sending.returns_ran (h : Sending p i s) (hw : p.workers[k]? = some .ran) :
    Returns p i := by
  refine Returns.step (a := .work k) trivial ?_
  simp only [act, run, hw]
  exact Sending.returns_idle (h.of_same rfl rfl rfl rfl) (setWorker_self hw _)

theorem Sending.returns_running {task : ℕ} (h : Sending p i s)
    (hw : p.workers[k]? = some (.running task)) : Returns p i := by
  refine Returns.step (a := .work k) trivial ?_
  simp only [act, run, hw]
  exact Sending.returns_ran (h.of_same rfl rfl rfl rfl) (setWorker_self hw _)

theorem Sending.returns_counted {task : ℕ} (h : Sending p i s)
    (hw : p.workers[k]? = some (.counted task)) : Returns p i := by
  refine Returns.step (a := .work k) trivial ?_
  simp only [act, run, hw]
  exact Sending.returns_running (h.of_same rfl rfl rfl rfl) (setWorker_self hw _)

theorem Sending.returns_received {task : ℕ} (h : Sending p i s)
    (hw : p.workers[k]? = some (.received task)) : Returns p i := by
  refine Returns.step (a := .work k) trivial ?_
  simp only [act, run, hw]
  exact Sending.returns_counted (h.of_same rfl rfl rfl rfl) (setWorker_self hw _)

/-- The first worker gets to the channel, and the submission is accepted. -/
theorem Sending.returns (h : Sending p i s) (hc : Channelled p) : Returns p i := by
  have hexited : .exited ∉ p.workers := fun he =>
    absurd (hc.drained he).1 (by rw [h.opened]; decide)
  cases hw : p.workers[0]? with
  | none => exact absurd (List.getElem?_eq_none_iff.mp hw) (Nat.not_le.mpr hc.staffed)
  | some w =>
    cases w with
    | idle => exact h.returns_idle hw
    | waiting => exact h.returns_waiting hw
    | received task => exact h.returns_received hw
    | counted task => exact h.returns_counted hw
    | running task => exact h.returns_running hw
    | ran => exact h.returns_ran hw
    | exited => exact absurd (List.mem_of_getElem? hw) hexited

theorem returns_of_counting (hc : Channelled p) (hs : p.submissions[i]? = some s)
    (hstage : s.stage = .counting) (hopen : p.closed = false) : Returns p i := by
  refine Returns.step (a := .submission i .done) rfl ?_
  simp only [act, submission, hs, hstage]
  exact Sending.returns (s := { s with stage := .selecting })
    ⟨setStage_self hs _, rfl, hopen, hc.bounded⟩ ⟨hc.staffed, hc.bounded, hc.drained⟩

theorem Safe.returns (h : Safe p) (hc : Consistent p) (hs : p.submissions[i]? = some s) :
    Returns p i := by
  have hmem := List.mem_of_getElem? hs
  have hopen : s.stage.Passed → p.closed = false := by
    intro hpassed
    rw [← Bool.not_eq_true]
    exact fun hclosed => h.settled hclosed s hmem hpassed
  cases hstage : s.stage with
  | checking =>
    refine Returns.step (a := .submission i .done) rfl ?_
    simp only [act, submission, hs, hstage]
    split_ifs with hstopped
    · exact returns_of_returned (setStage_self hs _) rfl
    · have hopened : p.closed = false := by
        rw [← Bool.not_eq_true]
        exact fun hclosed => hstopped (hc.stops.flagged hclosed)
      exact returns_of_counting
        ⟨hc.channelled.staffed, hc.channelled.bounded, hc.channelled.drained⟩
        (setStage_self hs _) rfl hopened
  | counting => exact returns_of_counting hc.channelled hs hstage (hopen (Or.inl hstage))
  | selecting =>
    exact Sending.returns ⟨hs, hstage, hopen (Or.inr hstage), hc.channelled.bounded⟩ hc.channelled
  | withdrawing answer => exact returns_of_withdrawing hs hstage
  | returned answer => exact returns_of_returned hs hstage
  | panicked => exact absurd hstage (h.unpanicked s hmem)

end Sending

/-! ## Shutdown -/

/-- No goroutine has panicked, every submission can return and returns one of the four answers,
a task is executed once at most and only if it was accepted, and all accepted tasks are executed
when `Stop` has returned. -/
structure Orderly (p : Pool) : Prop where
  submissions : ∀ s ∈ p.submissions, s.stage ≠ .panicked ∧ s.Answers p.stopped
  stops : .panicked ∉ p.stops
  returns : ∀ i < p.submissions.length, Returns p i
  once : ∀ i, p.executed.count i ≤ 1 ∧ (i ∈ p.executed → p.Accepted i)
  complete : .returned ∈ p.stops → ∀ i, p.Accepted i → p.executed.count i = 1

theorem Consistent.executed_le (h : Consistent p) (i : ℕ) :
    p.executed.count i ≤ 1 ∧ (i ∈ p.executed → p.Accepted i) := by
  have hshare := h.shared i
  have hle : p.executed.count i ≤ p.share i := Nat.le_add_left _ _
  split_ifs at hshare with haccepted
  · exact ⟨by omega, fun _ => haccepted⟩
  · have hzero : p.executed.count i = 0 := by omega
    exact ⟨by omega, fun hmem => absurd hmem (List.count_eq_zero.mp hzero)⟩

/-- When all workers have left, nothing is in the channel and nothing in their hands. -/
theorem Consistent.executed_of_ended (h : Consistent p) (hended : .returned ∈ p.stops)
    (haccepted : p.Accepted i) : p.executed.count i = 1 := by
  have hexited := h.stops.ended hended
  have hcarried : p.workers.flatMap Runner.carried = [] := by
    rw [List.flatMap_eq_nil_iff]
    intro w hw
    rw [hexited w hw]
    rfl
  obtain ⟨w, hw⟩ := List.exists_mem_of_length_pos h.channelled.staffed
  have htasks : p.tasks = [] := by
    rw [hexited w hw] at hw
    exact (h.channelled.drained hw).2
  have hshare := h.shared i
  rw [share, htasks, hcarried, if_pos haccepted] at hshare
  simpa using hshare

theorem Consistent.orderly (hc : Consistent p) (h : Safe p) : Orderly p where
  submissions := fun s hs => ⟨h.unpanicked s hs, hc.answering s hs⟩
  stops := hc.stops.unpanicked
  returns := fun _ hi => h.returns hc (List.getElem?_eq_getElem hi)
  once := hc.executed_le
  complete := fun hended _ haccepted => hc.executed_of_ended hended haccepted

theorem consistent_after (hc : Consistent p) (acts : List Act) :
    Consistent (after exec p acts) := by
  induction acts generalizing p with
  | nil => exact hc
  | cons a acts ih => exact ih (hc.act a)

/-- Submissions do not close the channel. -/
theorem Safe.after_submissions (h : Safe p) (hc : Consistent p) {more : List Act}
    (hmore : ∀ a ∈ more, a.Submits) : Safe (after exec p more) := by
  induction more generalizing p with
  | nil => exact h
  | cons a more ih =>
    rw [List.forall_mem_cons] at hmore
    have hquiet : Quiet p a := by
      cases a with
      | stopper j => exact hmore.1.elim
      | _ => trivial
    exact ih ((safe_act_iff hc h a).mpr hquiet) (hc.act a) hmore.2

/-- A submission that is caught between its check and its send by the closed channel panics
within two steps. -/
theorem caught_panics {s : Submission} (hs : p.submissions[i]? = some s)
    (hpassed : s.stage.Passed) (hclosed : p.closed = true) :
    ∃ more : List Act, (∀ a ∈ more, a.Submits) ∧
      ∃ r ∈ (after exec p more).submissions, r.stage = .panicked := by
  have hpanic : ∀ (q : Pool) (r : Submission), q.submissions[i]? = some r →
      r.stage = .selecting → q.closed = true →
      ∃ r ∈ (q.act (.submission i (.send 0))).submissions, r.stage = .panicked := by
    intro q r hr hstage hc
    refine ⟨{ r with stage := .panicked }, ?_, rfl⟩
    simp only [act, submission, hr, hstage, select, hc, if_true]
    exact List.mem_of_getElem? (setStage_self hr _)
  rcases hpassed with hstage | hstage
  · refine ⟨[.submission i (.send 0), .submission i (.send 0)], by simp [Act.Submits], ?_⟩
    have hact : p.act (.submission i (.send 0)) =
        { p.setStage i s .selecting with queued := p.queued + 1 } := by
      simp only [act, submission, hs, hstage]
    refine hpanic (p.act (.submission i (.send 0))) { s with stage := .selecting } ?_ rfl ?_
    · rw [hact]
      exact setStage_self hs _
    · rw [hact]
      exact hclosed
  · exact ⟨[.submission i (.send 0)], by simp [Act.Submits], hpanic p s hs hstage hclosed⟩

/-- A run is orderly, however the submissions that are under way go on, exactly if the channel
is never closed while a submission is between its check of the flag and its send. -/
theorem shutdown_orderly_iff (config : PoolConfig) (acts : List Act) :
    (∀ done, done <+: acts → ∀ more : List Act, (∀ a ∈ more, a.Submits) →
      Orderly (ran config (done ++ more))) ↔ StepsMeet exec Quiet (started config) acts := by
  have hiff := @forall_prefix_iff_stepsMeet _ _ _ exec Quiet Consistent Safe
    (fun _ a hc => hc.act a) (fun _ a hc h => safe_act_iff hc h a) _ (consistent_started config)
    (safe_started config) acts
  rw [← hiff]
  constructor
  · intro horderly done hdone
    refine ⟨fun s hs => ?_, fun hclosed s hs hpassed => ?_⟩
    · have h := horderly done hdone [] nofun
      rw [List.append_nil] at h
      exact (h.submissions s hs).1
    · obtain ⟨i, hi⟩ := List.mem_iff_getElem?.mp hs
      obtain ⟨more, hmore, r, hr, hpanicked⟩ := caught_panics hi hpassed hclosed
      have h := horderly done hdone more hmore
      rw [ran, after_append] at h
      exact (h.submissions r hr).1 hpanicked
  · intro hsafe done hdone more hmore
    have hc := consistent_after (consistent_started config) done
    rw [ran, after_append]
    exact (consistent_after hc more).orderly ((hsafe done hdone).after_submissions hc hmore)

/-- `Submit` reads the flag, `Stop` sets it and closes the channel, and `Submit` sends. -/
def caughtRun : List Act :=
  [.submit .submit, .submission 0 (.send 0), .stop, .stopper 0, .stopper 0, .stopper 0,
    .submission 0 (.send 0), .submission 0 (.send 0)]

theorem shutdown_panics_caughtRun :
    (ran ⟨2, 2⟩ caughtRun).submissions.map Submission.stage = [.panicked] ∧
      (ran ⟨2, 2⟩ caughtRun).closed = true := by
  decide

end Pool
end RabbitmqLite.Worker
