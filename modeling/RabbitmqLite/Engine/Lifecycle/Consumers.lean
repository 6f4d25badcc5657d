import RabbitmqLite.Engine.Lifecycle.Model

/-! # The consumers of an engine

The pool of a consumer is stopped only after its dispatch loop has ended, and
nobody but the loop submits to it. So no submission can meet a closed channel.
-/

namespace RabbitmqLite.Engine.Lifecycle
open Atomic Collections

section Pools
variable {p q : Worker.Pool} {i : ℕ}

theorem submissions_work (p : Worker.Pool) (k : ℕ) :
    (p.act (.work k)).submissions = p.submissions := by
  have h := Worker.Pool.act_moves (p := p) (.work k)
  generalize p.act (.work k) = q at h
  cases h <;> rfl

theorem stops_work (p : Worker.Pool) (k : ℕ) : (p.act (.work k)).stops = p.stops := by
  have h := Worker.Pool.act_moves (p := p) (.work k)
  generalize p.act (.work k) = q at h
  cases h <;> rfl

theorem submissions_stopper (p : Worker.Pool) (j : ℕ) :
    (p.act (.stopper j)).submissions = p.submissions := by
  have h := Worker.Pool.act_moves (p := p) (.stopper j)
  generalize p.act (.stopper j) = q at h
  cases h <;> rfl

theorem length_stops_stopper (p : Worker.Pool) (j : ℕ) :
    (p.act (.stopper j)).stops.length = p.stops.length := by
  have h := Worker.Pool.act_moves (p := p) (.stopper j)
  generalize p.act (.stopper j) = q at h
  cases h <;> simp [Worker.Pool.setStopper]

theorem stops_submission (p : Worker.Pool) (i : ℕ) (choice : Worker.Choice) :
    (p.act (.submission i choice)).stops = p.stops := by
  have h := Worker.Pool.act_moves (p := p) (.submission i choice)
  generalize p.act (.submission i choice) = q at h
  cases h <;> rfl

theorem stops_cancel (p : Worker.Pool) (i : ℕ) : (p.act (.cancel i)).stops = p.stops := by
  have h := Worker.Pool.act_moves (p := p) (.cancel i)
  generalize p.act (.cancel i) = q at h
  cases h <;> rfl

/-- A step of one submission leaves the others alone. -/
theorem submissions_submission {j : ℕ} (h : j ≠ i) (p : Worker.Pool) (choice : Worker.Choice) :
    (p.act (.submission i choice)).submissions[j]? = p.submissions[j]? := by
  have hm := Worker.Pool.act_moves (p := p) (.submission i choice)
  generalize p.act (.submission i choice) = q at hm
  cases hm <;> simp [Worker.Pool.setStage, Worker.Pool.setWorker, List.getElem?_set_ne h.symm]

theorem submissions_cancel {j : ℕ} (h : j ≠ i) (p : Worker.Pool) :
    (p.act (.cancel i)).submissions[j]? = p.submissions[j]? := by
  have hm := Worker.Pool.act_moves (p := p) (.cancel i)
  generalize p.act (.cancel i) = q at hm
  cases hm <;> simp [List.getElem?_set_ne h.symm]

end Pools

/-- The pool of the consumer is stopped or about to be stopped. -/
def Once.reachesPool : Once → Bool
  | .running .inPool | .finished => true
  | .fresh | .running .cancel | .running .await | .running .callPool => false

namespace Consumer
variable {x : Consumer}

/-- The invariant of a consumer: its pool is stopped after its dispatch loop has ended, and only
the loop submits. -/
structure Sound (x : Consumer) : Prop where
  consistent : x.pool.Consistent
  safe : x.pool.Safe
  returned : ∀ i s, x.pool.submissions[i]? = some s →
    (∃ a, s.stage = .returned a) ∨ ∃ left, x.loop = .submitting i left
  done : x.once = .running .callPool ∨ x.once.reachesPool = true → x.loop.done = true
  unstopped : x.once.reachesPool = false → x.pool.stops = []
  stopping : x.once = .running .inPool → ∃ stopper, x.pool.stops = [stopper]
  stopped : x.once = .finished → x.pool.stops = [.returned]

theorem sound_subscribed (spec : ConsumerSpec) (root : ℕ) : (subscribed spec root).Sound where
  consistent := Worker.Pool.consistent_started _
  safe := Worker.Pool.safe_started _
  returned := by simp [subscribed, Worker.Pool.started]
  done := by simp [subscribed, Once.reachesPool]
  unstopped := fun _ => rfl
  stopping := nofun
  stopped := nofun

/-- Only the place of the loop changes. -/
theorem Sound.of_loop (h : x.Sound) {loop : Loop}
    (hs : ∀ i left, x.loop ≠ .submitting i left) (hdone : x.loop.done = true → loop.done = true) :
    ({ x with loop } : Consumer).Sound where
  consistent := h.consistent
  safe := h.safe
  returned := fun i s hi => (h.returned i s hi).imp id (fun ⟨left, hl⟩ => absurd hl (hs i left))
  done := fun ho => hdone (h.done ho)
  unstopped := h.unstopped
  stopping := h.stopping
  stopped := h.stopped

/-- A step of the loop in the pool, while the pool is open. -/
theorem Sound.of_pool (h : x.Sound) (hl : x.loop.done = false) {loop : Loop} {pool : Worker.Pool}
    (hc : pool.Consistent) (hsafe : pool.Safe)
    (hstops : pool.stops = x.pool.stops)
    (hr : ∀ i s, pool.submissions[i]? = some s →
      (∃ a, s.stage = .returned a) ∨ ∃ left, loop = .submitting i left) :
    ({ x with loop, pool } : Consumer).Sound where
  consistent := hc
  safe := hsafe
  returned := hr
  done := by
    intro ho
    rw [h.done ho] at hl
    cases hl
  unstopped := fun ho => hstops.trans (h.unstopped ho)
  stopping := fun ho => by rw [hstops]; exact h.stopping ho
  stopped := fun ho => by rw [hstops]; exact h.stopped ho

theorem answered_iff {pool : Worker.Pool} {i : ℕ} {s : Worker.Submission}
    (hs : pool.submissions[i]? = some s) : answered pool i = true ↔ ∃ a, s.stage = .returned a := by
  unfold answered
  rw [hs, Option.map_some]
  cases s.stage <;> simp

/-- The pool of a submission whose context may be done by now. -/
theorem Sound.cancelling (h : x.Sound) (cancelled : Bool) (i : ℕ) {pool : Worker.Pool}
    (hpool : pool = if cancelled then x.pool.act (.cancel i) else x.pool) :
    pool.Consistent ∧ pool.Safe ∧ pool.stops = x.pool.stops ∧
      ∀ j, j ≠ i → pool.submissions[j]? = x.pool.submissions[j]? := by
  subst hpool
  split_ifs
  · exact ⟨h.consistent.act _, (Worker.Pool.safe_act_iff h.consistent h.safe _).mpr trivial,
      stops_cancel _ _, fun _ hj => submissions_cancel hj _⟩
  · exact ⟨h.consistent, h.safe, rfl, fun _ _ => rfl⟩

theorem Sound.submitting (h : x.Sound) {i left : ℕ} (hl : x.loop = .submitting i left)
    (cancelled : Bool) (choice : Worker.Choice) :
    let pool := (if cancelled then x.pool.act (.cancel i) else x.pool).act (.submission i choice)
    ({ x with loop := if answered pool i then .handing left else .submitting i left, pool } :
      Consumer).Sound := by
  obtain ⟨pool, hpool⟩ : ∃ pool, pool = if cancelled then x.pool.act (.cancel i) else x.pool :=
    ⟨_, rfl⟩
  obtain ⟨hc, hsafe, hstops, hothers⟩ := h.cancelling cancelled i hpool
  rw [← hpool]
  refine h.of_pool (by rw [hl]; rfl) (hc.act _)
    ((Worker.Pool.safe_act_iff hc hsafe _).mpr trivial) ((stops_submission _ _ _).trans hstops)
    (fun j s hj => ?_)
  by_cases hji : j = i
  · subst hji
    by_cases ha : answered (pool.act (.submission j choice)) j = true
    · exact Or.inl ((answered_iff hj).mp ha)
    · exact Or.inr ⟨left, if_neg ha⟩
  · -- the other submissions have returned before
    rw [submissions_submission hji, hothers j hji] at hj
    refine Or.inl ((h.returned j s hj).resolve_right ?_)
    rintro ⟨n, hn⟩
    rw [hl] at hn
    exact hji (Loop.submitting.inj hn).1.symm

theorem Sound.dispatch (h : x.Sound) (cancelled : Bool) (claimed : Option ℕ)
    (choice : Worker.Choice) : (x.dispatch cancelled claimed choice).Sound := by
  unfold Consumer.dispatch
  cases hl : x.loop with
  | checking => exact h.of_loop (by simp [hl]) (by simp [hl, Loop.done])
  | claiming =>
    have hns : ∀ i left, x.loop ≠ .submitting i left := by simp [hl]
    have hnd : x.loop.done = false := by rw [hl]; rfl
    dsimp only
    split
    · exact h.of_loop hns (by simp [hnd])
    · exact h.of_loop hns (by simp [hnd])
    · split_ifs
      · exact h.of_loop hns (by simp [hnd])
      · exact h
  | waiting => exact h.of_loop (by simp [hl]) (by simp [hl, Loop.done])
  | handing left =>
    cases left with
    | zero => exact h.of_loop (by simp [hl]) (by simp [hl, Loop.done])
    | succ left =>
      refine h.of_pool (by rw [hl]; rfl) (h.consistent.act _)
        ((Worker.Pool.safe_act_iff h.consistent h.safe _).mpr trivial) rfl (fun i s hi => ?_)
      rcases getElem?_snoc hi with hi | ⟨rfl, rfl⟩
      · exact (h.returned i s hi).imp id (fun ⟨n, hn⟩ => by rw [hl] at hn; cases hn)
      · exact Or.inr ⟨left, rfl⟩
  | submitting i left => exact h.submitting hl cancelled choice
  | leaving => exact h
  | ended => exact h

theorem Sound.work (h : x.Sound) (k : ℕ) :
    ({ x with pool := x.pool.act (.work k) } : Consumer).Sound where
  consistent := h.consistent.act (.work k)
  safe := (Worker.Pool.safe_act_iff h.consistent h.safe (.work k)).mpr trivial
  returned := by
    rw [submissions_work]
    exact h.returned
  done := h.done
  unstopped := by
    rw [stops_work]
    exact h.unstopped
  stopping := by
    rw [stops_work]
    exact h.stopping
  stopped := by
    rw [stops_work]
    exact h.stopped

/-- When the loop has ended, every submission has returned. -/
theorem Sound.all_returned (h : x.Sound) (hd : x.loop.done = true) :
    ∀ s ∈ x.pool.submissions, ¬ s.stage.Passed := by
  intro s hs
  obtain ⟨i, hi⟩ := List.mem_iff_getElem?.mp hs
  rcases h.returned i s hi with ⟨a, ha⟩ | ⟨left, hl⟩
  · simp [Worker.Stage.Passed, ha]
  · rw [hl] at hd
    cases hd

theorem Sound.enter (h : x.Sound) (ho : x.once = .fresh) :
    ({ x with once := .running .cancel } : Consumer).Sound where
  consistent := h.consistent
  safe := h.safe
  returned := h.returned
  done := by simp [Once.reachesPool]
  unstopped := fun _ => h.unstopped (by rw [ho]; rfl)
  stopping := nofun
  stopped := nofun

theorem Sound.finish (h : x.Sound) (ho : x.once = .running .inPool)
    (hr : x.pool.stops[0]? = some .returned) :
    ({ x with once := .finished } : Consumer).Sound where
  consistent := h.consistent
  safe := h.safe
  returned := h.returned
  done := fun _ => h.done (Or.inr (by rw [ho]; rfl))
  unstopped := nofun
  stopping := nofun
  stopped := by
    intro _
    obtain ⟨stopper, hs⟩ := h.stopping ho
    rw [hs] at hr ⊢
    simpa using hr

theorem Sound.stop (h : x.Sound) : x.stop.Sound := by
  unfold Consumer.stop
  split
  · rename_i ho
    exact ⟨h.consistent, h.safe, h.returned, by simp [Once.reachesPool],
      fun _ => h.unstopped (by rw [ho]; rfl), nofun, nofun⟩
  · rename_i ho
    split_ifs with hd
    · exact ⟨h.consistent, h.safe, h.returned, fun _ => hd,
        fun _ => h.unstopped (by rw [ho]; rfl), nofun, nofun⟩
    · exact h
  · rename_i ho
    have hnil : x.pool.stops = [] := h.unstopped (by rw [ho]; rfl)
    refine ⟨h.consistent.act .stop,
      (Worker.Pool.safe_act_iff h.consistent h.safe .stop).mpr trivial, h.returned,
      fun _ => h.done (Or.inl ho), nofun, fun _ => ⟨.entering, ?_⟩, nofun⟩
    change x.pool.stops ++ [.entering] = [.entering]
    rw [hnil, List.nil_append]
  · rename_i ho
    have hd := h.done (Or.inr (by rw [ho]; rfl))
    have hquiet : Worker.Pool.Quiet x.pool (.stopper 0) := fun _ => h.all_returned hd
    refine ⟨h.consistent.act (.stopper 0),
      (Worker.Pool.safe_act_iff h.consistent h.safe (.stopper 0)).mpr hquiet, ?_,
      fun _ => hd, ?_, fun _ => ?_, ?_⟩
    · rw [submissions_stopper]
      exact h.returned
    · rw [ho]
      nofun
    · obtain ⟨stopper, hs⟩ := h.stopping ho
      exact List.length_eq_one_iff.mp (by rw [length_stops_stopper, hs, List.length_singleton])
    · rw [ho]
      nofun
  · exact h
  · exact h

end Consumer

/-! ## Each consumer -/

theorem Consumer.dispatch_frame (x : Consumer) (cancelled : Bool) (claimed : Option ℕ)
    (choice : Worker.Choice) : (x.dispatch cancelled claimed choice).spec = x.spec ∧
      (x.dispatch cancelled claimed choice).root = x.root ∧
      (x.dispatch cancelled claimed choice).once = x.once := by
  unfold Consumer.dispatch
  split
  · exact ⟨rfl, rfl, rfl⟩
  · split
    · exact ⟨rfl, rfl, rfl⟩
    · exact ⟨rfl, rfl, rfl⟩
    · split_ifs <;> exact ⟨rfl, rfl, rfl⟩
  all_goals exact ⟨rfl, rfl, rfl⟩

/-- The steps of a `sync.Once`. -/
inductive Once.Moves : Once → Once → Prop
  | same (o : Once) : Moves o o
  | enter : Moves .fresh (.running .cancel)
  | goOn (a b : Stopping) : Moves (.running a) (.running b)
  | finish (a : Stopping) : Moves (.running a) .finished

theorem Once.Moves.of_finished {o : Once} (h : Once.Moves .finished o) : o = .finished := by
  cases h
  rfl

theorem Consumer.stop_frame (x : Consumer) : x.stop.spec = x.spec ∧ x.stop.root = x.root ∧
    x.stop.loop = x.loop ∧
    (x.stop.once = x.once ∨ ∃ i j, x.once = .running i ∧ x.stop.once = .running j) := by
  unfold Consumer.stop
  split
  · rename_i ho
    exact ⟨rfl, rfl, rfl, Or.inr ⟨_, _, ho, rfl⟩⟩
  · rename_i ho
    split_ifs
    · exact ⟨rfl, rfl, rfl, Or.inr ⟨_, _, ho, rfl⟩⟩
    · exact ⟨rfl, rfl, rfl, Or.inl rfl⟩
  · rename_i ho
    exact ⟨rfl, rfl, rfl, Or.inr ⟨_, _, ho, rfl⟩⟩
  all_goals exact ⟨rfl, rfl, rfl, Or.inl rfl⟩

namespace Host
variable {s s' : Host} {a : Label} {c : ℕ} {x : Consumer}

theorem getElem?_setConsumer {x' : Consumer} (hx : s.all[c]? = some x) (j : ℕ) :
    (s.setConsumer c x').all[j]? = if c = j then some x' else s.all[j]? :=
  getElem?_set_of_some hx x' j

/-- A step leaves every consumer where it is, with its settings and its context. -/
theorem Moves.consumer (hm : Moves s a s') (hx : s.all[c]? = some x) :
    ∃ x', s'.all[c]? = some x' ∧ x'.spec = x.spec ∧ x'.root = x.root ∧
      Once.Moves x.once x'.once := by
  have hset : ∀ {d : ℕ} {z z' : Consumer}, s.all[d]? = some z → z'.spec = z.spec →
      z'.root = z.root → Once.Moves z.once z'.once →
      ∃ x', (s.all.set d z')[c]? = some x' ∧ x'.spec = x.spec ∧ x'.root = x.root ∧
        Once.Moves x.once x'.once := by
    intro d z z' hz hspec hroot honce
    rw [getElem?_set_of_some hz]
    by_cases hdc : d = c
    · subst hdc
      obtain rfl := Option.some.inj (hz.symm.trans hx)
      exact ⟨z', if_pos rfl, hspec, hroot, honce⟩
    · exact ⟨x, by rw [if_neg hdc, hx], rfl, rfl, .same _⟩
  have hsame : s'.all = s.all → ∃ x', s'.all[c]? = some x' ∧ x'.spec = x.spec ∧
      x'.root = x.root ∧ Once.Moves x.once x'.once :=
    fun h => ⟨x, by rw [h, hx], rfl, rfl, .same _⟩
  cases hm with
  | subscribe =>
    obtain ⟨hlt, -⟩ := List.getElem?_eq_some_iff.mp hx
    exact ⟨x, by rw [List.getElem?_append_left hlt, hx], rfl, rfl, .same _⟩
  | enter _ _ _ hz ho => exact hset hz rfl rfl (ho ▸ .enter)
  | @stop _ _ _ _ z _ _ _ _ hz =>
    obtain ⟨hspec, hroot, -, honce | ⟨i, j, hi, hj⟩⟩ := z.stop_frame
    · exact hset hz hspec hroot (honce ▸ .same _)
    · exact hset hz hspec hroot (by rw [hi, hj]; exact .goOn i j)
  | finish _ _ _ hz ho => exact hset hz rfl rfl (ho ▸ .finish _)
  | leave hz => exact hset hz rfl rfl (.same _)
  | @dispatch _ claimed choice z hz =>
    obtain ⟨hspec, hroot, honce⟩ := z.dispatch_frame (s.cancelled z) claimed choice
    exact hset hz hspec hroot (honce ▸ .same _)
  | work hz => exact hset hz rfl rfl (.same _)
  | _ => exact hsame rfl

/-- A consumer that was not there before was just subscribed. -/
theorem Moves.subscribed (hm : Moves s a s') (hx : s'.all[c]? = some x)
    (hge : s.all.length ≤ c) : s.rootCtx = some x.root ∧ c ∈ s'.consumers.map Prod.snd := by
  obtain ⟨hlt, -⟩ := List.getElem?_eq_some_iff.mp hx
  cases hm with
  | subscribe hroot =>
    rcases getElem?_snoc hx with hold | ⟨rfl, rfl⟩
    · exact absurd (List.getElem?_eq_some_iff.mp hold).1 (not_lt.mpr hge)
    · exact ⟨hroot, List.mem_cons_self⟩
  | enter | stop | finish | leave | dispatch | work =>
    simp only [setCaller, setConsumer, done_all, List.length_set] at hlt
    omega
  | _ => exact absurd hlt (not_lt.mpr hge)

theorem sound_moves (h : ∀ x ∈ s.all, x.Sound) (hm : Moves s a s') : ∀ x ∈ s'.all, x.Sound := by
  have hset : ∀ {d : ℕ} {z : Consumer}, z.Sound → ∀ x ∈ s.all.set d z, x.Sound := by
    intro d z hz x hx
    rcases List.mem_or_eq_of_mem_set hx with hx | rfl
    · exact h x hx
    · exact hz
  cases hm with
  | subscribe =>
    intro x hx
    rcases List.mem_append.mp hx with hx | hx
    · exact h x hx
    · rw [List.mem_singleton.mp hx]
      exact Consumer.sound_subscribed _ _
  | enter _ _ _ hz ho => exact hset ((h _ (List.mem_of_getElem? hz)).enter ho)
  | stop _ _ _ hz => exact hset (h _ (List.mem_of_getElem? hz)).stop
  | finish _ _ _ hz ho hr => exact hset ((h _ (List.mem_of_getElem? hz)).finish ho hr)
  | leave hz hl =>
    exact hset ((h _ (List.mem_of_getElem? hz)).of_loop (by simp [hl]) (fun _ => rfl))
  | dispatch hz => exact hset ((h _ (List.mem_of_getElem? hz)).dispatch _ _ _)
  | work hz => exact hset ((h _ (List.mem_of_getElem? hz)).work _)
  | _ => exact h

end Host

end RabbitmqLite.Engine.Lifecycle
