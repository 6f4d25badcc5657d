import RabbitmqLite.Engine.Lifecycle.Shutdown
import RabbitmqLite.Worker.Progress

/-! # A shutdown comes to an end

Once `Shutdown` has taken the context of the engine, no call, loop or worker
can go on for ever, and none can wait for another that never comes. So however
the goroutines are scheduled, all calls return and nothing of the engine runs
in the end.
-/

namespace RabbitmqLite.Engine.Lifecycle
open Atomic Collections

/-! ## Consumers -/

/-- The weight of a loop whose context is cancelled: it may still be handed one batch, and each
message of it costs one submission. -/
def Loop.weight (prefetch : ℕ) : Loop → ℕ
  | .claiming => 14 * prefetch + 4
  | .submitting _ left => 14 * left + 4
  | .handing left => 14 * left + 3
  | .waiting => 3
  | .checking => 2
  | .leaving => 1
  | .ended => 0

def Once.weight : Once → ℕ
  | .fresh => 10
  | .running .cancel => 9
  | .running .await => 8
  | .running .callPool => 7
  | .running .inPool => 1
  | .finished => 0

namespace Consumer
variable {x : Consumer}

def weight (x : Consumer) : ℕ :=
  x.loop.weight x.spec.prefetch.toNat + x.once.weight + x.pool.weight

theorem weight_submit (p : Worker.Pool) : (p.act (.submit .submit)).weight = p.weight + 12 := by
  simp only [Worker.Pool.act, Worker.Pool.weight, List.map_append, List.sum_append]
  simp [Worker.Submission.weight, Worker.Stage.weight]
  omega

theorem weight_stop (p : Worker.Pool) : (p.act .stop).weight = p.weight + 5 := by
  simp only [Worker.Pool.act, Worker.Pool.weight, List.map_append, List.sum_append]
  simp [Worker.Stopper.weight]
  omega

/-- A loop whose context is cancelled comes closer to its end. -/
theorem dispatch_weight (x : Consumer) (claimed : Option ℕ) (choice : Worker.Choice) :
    x.dispatch true claimed choice = x ∨ (x.dispatch true claimed choice).weight < x.weight := by
  unfold dispatch weight
  cases hl : x.loop with
  | checking => exact Or.inr (by simp [Loop.weight])
  | claiming =>
    dsimp only
    split
    · exact Or.inr (by simp [Loop.weight])
    · exact Or.inr (by simp [Loop.weight])
    · split_ifs with hn
      · exact Or.inr (by simp [Loop.weight]; omega)
      · exact Or.inl rfl
  | waiting => exact Or.inr (by simp [Loop.weight])
  | handing left =>
    cases left with
    | zero => exact Or.inr (by simp [Loop.weight])
    | succ left =>
      right
      simp only [weight_submit, Loop.weight]
      omega
  | submitting i left =>
    obtain ⟨pool, hpool⟩ : ∃ pool, pool =
      (x.pool.act (.cancel i)).act (.submission i choice) := ⟨_, rfl⟩
    have hless : pool = x.pool ∨ pool.weight < x.pool.weight := by
      rw [hpool]
      rcases x.pool.act_weight (.cancel i) trivial with hcancel | hcancel
      · rw [hcancel]
        exact x.pool.act_weight _ trivial
      · rcases (x.pool.act (.cancel i)).act_weight (.submission i choice) trivial with hsend | hsend
        · exact Or.inr (by rwa [hsend])
        · exact Or.inr (hsend.trans hcancel)
    simp only [if_true, ← hpool]
    split_ifs with ha
    · right
      have hle : pool.weight ≤ x.pool.weight := hless.elim (fun h => h ▸ le_rfl) le_of_lt
      simp only [Loop.weight]
      omega
    · refine hless.imp (fun h => ?_) (fun h => ?_)
      · rw [h, ← hl]
      · exact Nat.add_lt_add_left h _
  | leaving => exact Or.inl rfl
  | ended => exact Or.inl rfl

/-- The function inside the `sync.Once` comes closer to its end. -/
theorem stop_weight (x : Consumer) : x.stop = x ∨ x.stop.weight < x.weight := by
  unfold stop weight
  split
  · rename_i ho
    exact Or.inr (by simp [ho, Once.weight])
  · rename_i ho
    split_ifs
    · exact Or.inr (by simp [ho, Once.weight])
    · exact Or.inl rfl
  · rename_i ho
    right
    simp only [ho, weight_stop, Once.weight]
    omega
  · refine (x.pool.act_weight (.stopper 0) trivial).imp (fun h => ?_) (fun h => ?_)
    · rw [h]
    · exact Nat.add_lt_add_left h _
  · exact Or.inl rfl
  · exact Or.inl rfl

end Consumer

/-! ## Steps -/

def Phase.weight : Phase → ℕ
  | .cancel _ => 4
  | .enter | .inside => 3
  | .waitGroup => 2
  | .parked _ => 1
  | .returned => 0

def Caller.weight (y : Caller) : ℕ :=
  y.phase.weight + y.todo.length + if y.outcome = none then 1 else 0

namespace Host
variable {s s' : Host} {a : Label} {c t : ℕ} {x x' : Consumer} {y y' : Caller}

def weight (s : Host) : ℕ :=
  (s.all.map Consumer.weight).sum + (s.callers.map Caller.weight).sum +
    (s.roots.map Root.share).sum + (!s.crashed).toNat

/-- The step is one of a goroutine that is there, and no loop of a running consumer. -/
def Winds (s : Host) : Label → Prop
  | .advance _ | .answer _ _ | .work _ _ | .maintain _ => True
  | .dispatch c _ _ => (s.all[c]?).all s.cancelled = true
  | _ => False

instance (s : Host) : (a : Label) → Decidable (s.Winds a)
  | .advance _ | .answer _ _ | .work _ _ | .maintain _ => inferInstanceAs (Decidable True)
  | .dispatch c _ _ => inferInstanceAs (Decidable ((s.all[c]?).all s.cancelled = true))
  | .start | .cancelParent _ | .subscribe _ _ _ | .unsubscribe _ | .stopConsumer _ | .shutdown _ =>
    inferInstanceAs (Decidable False)

theorem weight_setConsumer (hx : s.all[c]? = some x) (x' : Consumer) :
    (s.setConsumer c x').weight + x.weight = s.weight + x'.weight := by
  have hsum := sum_map_set Consumer.weight hx x'
  simp only [weight, setConsumer]
  omega

theorem weight_setCaller (hy : s.callers[t]? = some y) (y' : Caller) :
    (s.setCaller t y').weight + y.weight = s.weight + y'.weight := by
  have hsum := sum_map_set Caller.weight hy y'
  simp only [weight, setCaller]
  omega

theorem setConsumer_lt (hx : s.all[c]? = some x) (h : x'.weight < x.weight) :
    (s.setConsumer c x').weight < s.weight := by
  have := weight_setConsumer hx x'
  omega

theorem setCaller_lt (hy : s.callers[t]? = some y) (h : y'.weight < y.weight) :
    (s.setCaller t y').weight < s.weight := by
  have := weight_setCaller hy y'
  omega

/-- A consumer stays as it is or comes closer to its end. -/
theorem setConsumer_weight (hx : s.all[c]? = some x) (h : x' = x ∨ x'.weight < x.weight) :
    s.setConsumer c x' = s ∨ (s.setConsumer c x').weight < s.weight := by
  refine h.imp (fun h => ?_) (setConsumer_lt hx)
  rw [h, setConsumer, (set_eq_self_iff hx).mpr rfl]

theorem Moves.weight (hm : Moves s a s') (ha : Winds s a) : s' = s ∨ s'.weight < s.weight := by
  cases hm with
  | rest => exact Or.inl rfl
  | start | cancelParent | subscribe | unsubscribe | stopConsumer | shutdown => exact ha.elim
  | @cancel t y root hy hphase =>
    right
    have hsame : (s.cancelCtx root).weight = s.weight := by
      simp only [Host.weight, map_share_cancelCtx]
      rfl
    have hy' : (s.cancelCtx root).callers[t]? = some y := hy
    have hlt : ((s.cancelCtx root).setCaller t { y with phase := .enter }).weight <
        (s.cancelCtx root).weight :=
      setCaller_lt hy' (by simp [Caller.weight, hphase, Phase.weight])
    exact hsame ▸ hlt
  | dismiss hy hphase =>
    refine Or.inr (setCaller_lt hy ?_)
    simp only [Caller.weight, hphase]
    split_ifs <;> simp [Phase.weight]
  | @enter t c y rest x hy hphase _ hx honce =>
    right
    have hconsumer : (s.setConsumer c { x with once := .running .cancel }).weight < s.weight :=
      setConsumer_lt hx (by simp [Consumer.weight, honce, Once.weight])
    have hy' : (s.setConsumer c { x with once := .running .cancel }).callers[t]? = some y := hy
    have hcaller := weight_setCaller hy' { y with phase := .inside }
    have hsame : ({ y with phase := .inside } : Caller).weight = y.weight := by
      simp [Caller.weight, hphase, Phase.weight]
    omega
  | skip hy _ htodo =>
    exact Or.inr (setCaller_lt hy (by simp [Caller.weight, htodo]))
  | stop _ _ _ hx => exact setConsumer_weight hx (Consumer.stop_weight _)
  | @finish t c y rest x hy hphase htodo hx honce =>
    right
    have hconsumer : (s.setConsumer c { x with once := .finished }).weight < s.weight :=
      setConsumer_lt hx (by simp [Consumer.weight, honce, Once.weight])
    have hy' : (s.setConsumer c { x with once := .finished }).callers[t]? = some y := hy
    refine lt_trans (setCaller_lt hy' ?_) hconsumer
    simp [Caller.weight, hphase, htodo, Phase.weight]
  | @wait _ y hy hphase =>
    refine Or.inr (setCaller_lt hy ?_)
    have hwaits : Phase.returned.weight < y.phase.weight := by
      cases hp : y.phase <;> simp_all [Phase.waits, Phase.weight]
    simp only [Caller.weight]
    gcongr
  | park hy hphase =>
    exact Or.inr (setCaller_lt hy (by simp [Caller.weight, hphase, Phase.weight]))
  | crash _ _ _ _ hrunning =>
    right
    simp [Host.weight, hrunning]
  | answer hy _ hnone => exact Or.inr (setCaller_lt hy (by simp [Caller.weight, hnone]))
  | @leave c _ _ x hx hloop =>
    right
    have hconsumer : (s.setConsumer c { x with loop := .ended }).weight < s.weight :=
      setConsumer_lt hx (by simp [Consumer.weight, hloop, Loop.weight])
    exact hconsumer
  | @dispatch c claimed choice x hx =>
    have hcancelled : s.cancelled x = true := by simpa [Winds, hx] using ha
    rw [hcancelled]
    exact setConsumer_weight hx (x.dispatch_weight claimed choice)
  | @work c k x hx =>
    refine setConsumer_weight hx
      ((x.pool.act_weight (.work k) trivial).imp (fun h => ?_) (fun h => ?_))
    · rw [h]
    · exact Nat.add_lt_add_left h _
  | @maintain i r hr _ hmaintaining =>
    right
    have hsum := sum_map_set Root.share hr { r with maintaining := false }
    have hold : r.share = 1 := by simp [Root.share, hmaintaining]
    have hnew : ({ r with maintaining := false } : Root).share = 0 := rfl
    have hless : (s.all.map Consumer.weight).sum + (s.callers.map Caller.weight).sum +
        ((s.roots.set i { r with maintaining := false }).map Root.share).sum +
          (!s.crashed).toNat < s.weight := by
      rw [Host.weight]
      omega
    exact hless

end Host

/-! ## What a consumer waits for -/

/-- A submission keeps its kind. -/
theorem kind_moves {p q : Worker.Pool} {a : Worker.Act} (hm : Worker.Pool.Moves p a q) {i : ℕ}
    {sub : Worker.Submission} (hs : p.submissions[i]? = some sub) :
    ∃ sub', q.submissions[i]? = some sub' ∧ sub'.kind = sub.kind := by
  have hset : ∀ {j : ℕ} {r r' : Worker.Submission}, p.submissions[j]? = some r →
      r'.kind = r.kind → ∃ sub', (p.submissions.set j r')[i]? = some sub' ∧
        sub'.kind = sub.kind := by
    intro j r r' hr hkind
    rw [getElem?_set_of_some hr]
    split_ifs with hji
    · subst hji
      obtain rfl := Option.some.inj (hr.symm.trans hs)
      exact ⟨r', rfl, hkind⟩
    · exact ⟨sub, hs, rfl⟩
  cases hm with
  | arrive =>
    obtain ⟨hlt, -⟩ := List.getElem?_eq_some_iff.mp hs
    exact ⟨sub, by rw [List.getElem?_append_left hlt, hs], rfl⟩
  | cancel hr => exact hset hr rfl
  | refuse hr => exact hset hr rfl
  | pass hr => exact hset hr rfl
  | count hr => exact hset hr rfl
  | panic hr => exact hset hr rfl
  | handOver hr => exact hset hr rfl
  | enqueue hr => exact hset hr rfl
  | giveUp hr => exact hset hr rfl
  | withdraw hr => exact hset hr rfl
  | _ => exact ⟨sub, hs, rfl⟩

theorem submission_returned {p : Worker.Pool} {i : ℕ} {sub : Worker.Submission}
    {answer : Worker.Answer} (hs : p.submissions[i]? = some sub)
    (hstage : sub.stage = .returned answer) (choice : Worker.Choice) :
    p.act (.submission i choice) = p := by
  simp only [Worker.Pool.act, Worker.Pool.submission, hs, hstage]

/-- A call of `Submit` whose context is done goes on. -/
theorem submission_goes_on {p : Worker.Pool} {i : ℕ} {sub : Worker.Submission}
    (hs : p.submissions[i]? = some sub) (hkind : sub.kind = .submit)
    (hcancelled : sub.cancelled = true) (hreturned : ∀ a, sub.stage ≠ .returned a)
    (hpanicked : sub.stage ≠ .panicked) :
    ∃ stage, (p.act (.submission i .done)).submissions[i]? = some { sub with stage } ∧
      stage ≠ sub.stage := by
  simp only [Worker.Pool.act, Worker.Pool.submission, hs]
  cases hstage : sub.stage with
  | checking =>
    dsimp only
    split_ifs
    · exact ⟨_, Worker.Pool.setStage_self hs _, by simp⟩
    · exact ⟨_, Worker.Pool.setStage_self hs _, by simp⟩
  | counting => exact ⟨_, Worker.Pool.setStage_self hs _, by simp⟩
  | selecting =>
    dsimp only
    rw [Worker.Pool.select, if_pos ⟨hkind, hcancelled⟩]
    exact ⟨_, Worker.Pool.setStage_self hs _, by simp⟩
  | withdrawing a => exact ⟨_, Worker.Pool.setStage_self hs _, by simp⟩
  | returned a => exact absurd hstage (hreturned a)
  | panicked => exact absurd hstage hpanicked

namespace Consumer
variable {x : Consumer}

/-- What the goroutines of a consumer wait for is under way. -/
structure Live (x : Consumer) : Prop where
  latched : x.pool.Latched
  submitting : ∀ i left, x.loop = .submitting i left →
    ∃ sub, x.pool.submissions[i]? = some sub ∧ sub.kind = .submit

theorem live_subscribed (spec : ConsumerSpec) (root : ℕ) : (subscribed spec root).Live :=
  ⟨Worker.Pool.latched_started _, nofun⟩

theorem Live.of_pool (h : x.Live) (hs : x.Sound) (a : Worker.Act) (once : Once) :
    ({ x with once, pool := x.pool.act a } : Consumer).Live where
  latched := h.latched.act hs.consistent a
  submitting := by
    intro i left hl
    obtain ⟨sub, hsub, hkind⟩ := h.submitting i left hl
    obtain ⟨sub', hsub', hkind'⟩ := kind_moves (Worker.Pool.act_moves a) hsub
    exact ⟨sub', hsub', hkind'.trans hkind⟩

theorem Live.stop (h : x.Live) (hs : x.Sound) : x.stop.Live := by
  unfold Consumer.stop
  split
  · exact ⟨h.latched, h.submitting⟩
  · split_ifs
    · exact ⟨h.latched, h.submitting⟩
    · exact h
  · exact h.of_pool hs _ _
  · exact h.of_pool hs _ _
  · exact h
  · exact h

theorem Live.of_loop (h : x.Live) {loop : Loop} (hl : ∀ i left, loop ≠ .submitting i left) :
    ({ x with loop } : Consumer).Live :=
  ⟨h.latched, fun i left he => absurd he (hl i left)⟩

theorem Live.dispatch (h : x.Live) (hs : x.Sound) (cancelled : Bool) (claimed : Option ℕ)
    (choice : Worker.Choice) : (x.dispatch cancelled claimed choice).Live := by
  unfold Consumer.dispatch
  cases hl : x.loop with
  | checking => exact h.of_loop (by cases cancelled <;> simp)
  | claiming =>
    dsimp only
    split
    · exact h.of_loop (by cases cancelled <;> simp)
    · exact h.of_loop (by simp)
    · split_ifs
      · exact h.of_loop (by simp)
      · exact h
  | waiting => exact h.of_loop (by simp)
  | handing left =>
    cases left with
    | zero => exact h.of_loop (by simp)
    | succ left =>
      refine ⟨h.latched.act hs.consistent (.submit .submit), fun i n he => ?_⟩
      obtain ⟨rfl, rfl⟩ := Loop.submitting.inj he
      exact ⟨_, List.getElem?_concat_length, rfl⟩
  | submitting i left =>
    obtain ⟨sub, hsub, hkind⟩ := h.submitting i left hl
    obtain ⟨pool, hpool⟩ : ∃ pool, pool = if cancelled then x.pool.act (.cancel i) else x.pool :=
      ⟨_, rfl⟩
    have hbefore : pool.Latched ∧ pool.Consistent ∧
        ∃ sub', pool.submissions[i]? = some sub' ∧ sub'.kind = .submit := by
      rw [hpool]
      split_ifs
      · obtain ⟨sub', hsub', hkind'⟩ := kind_moves (Worker.Pool.act_moves (.cancel i)) hsub
        exact ⟨h.latched.act hs.consistent _, hs.consistent.act _, sub', hsub', hkind'.trans hkind⟩
      · exact ⟨h.latched, hs.consistent, sub, hsub, hkind⟩
    obtain ⟨hlatched, hconsistent, sub', hsub', hkind'⟩ := hbefore
    obtain ⟨sub'', hsub'', hkind''⟩ :=
      kind_moves (Worker.Pool.act_moves (.submission i choice)) hsub'
    dsimp only
    rw [← hpool]
    refine ⟨hlatched.act hconsistent (.submission i choice), fun j n he => ?_⟩
    dsimp only at he
    split_ifs at he
    obtain ⟨rfl, rfl⟩ := Loop.submitting.inj he
    exact ⟨sub'', hsub'', hkind''.trans hkind'⟩
  | leaving => exact h
  | ended => exact h

/-- A loop whose context is cancelled goes on until it has closed `done`. -/
theorem dispatch_ne (h : x.Live) (hs : x.Sound) (hd : x.loop.done = false) :
    x.dispatch true none .done ≠ x := by
  have hloop : ∀ {z : Consumer}, z.loop ≠ x.loop → z ≠ x := fun hne heq => hne (heq ▸ rfl)
  unfold Consumer.dispatch
  cases hl : x.loop with
  | checking => exact hloop (by simp [hl])
  | claiming => exact hloop (by simp [hl])
  | waiting => exact hloop (by simp [hl])
  | handing left =>
    cases left with
    | zero => exact hloop (by simp [hl])
    | succ left => exact hloop (by simp [hl])
  | submitting i left =>
    obtain ⟨sub, hsub, hkind⟩ := h.submitting i left hl
    have hcancel : (x.pool.act (.cancel i)).submissions[i]? =
        some { sub with cancelled := true } := by
      simp only [Worker.Pool.act, hsub]
      rw [getElem?_set_of_some hsub, if_pos rfl]
    simp only [if_true]
    by_cases hr : ∃ a, sub.stage = .returned a
    · obtain ⟨answer, hanswer⟩ := hr
      rw [submission_returned hcancel hanswer,
        if_pos ((answered_iff hcancel).mpr ⟨answer, hanswer⟩)]
      exact hloop (by simp [hl])
    · push Not at hr
      have hsafe := hs.safe.unpanicked sub (List.mem_of_getElem? hsub)
      obtain ⟨stage, hstage, hne⟩ := submission_goes_on hcancel hkind rfl hr hsafe
      intro heq
      rw [show (x.pool.act (.cancel i)).act (.submission i .done) = x.pool from
        congrArg Consumer.pool heq, hsub] at hstage
      exact hne (congrArg Worker.Submission.stage (Option.some.inj hstage)).symm
  | leaving =>
    rw [hl] at hd
    cases hd
  | ended =>
    rw [hl] at hd
    cases hd

end Consumer

/-! ## No call waits for ever -/

namespace Host
variable {s s' : Host} {a : Label} {c t : ℕ} {x x' : Consumer} {y y' : Caller}

theorem live_moves (hs : ∀ x ∈ s.all, x.Sound) (h : ∀ x ∈ s.all, x.Live) (hm : Moves s a s') :
    ∀ x ∈ s'.all, x.Live := by
  have hset : ∀ {d : ℕ} {z : Consumer}, z.Live → ∀ x ∈ s.all.set d z, x.Live := by
    intro d z hz x hx
    rcases List.mem_or_eq_of_mem_set hx with hx | rfl
    · exact h x hx
    · exact hz
  cases hm with
  | subscribe =>
    intro x hx
    rcases List.mem_append.mp hx with hx | hx
    · exact h x hx
    · rw [List.mem_singleton.mp hx]
      exact Consumer.live_subscribed _ _
  | enter _ _ _ hz =>
    have hlive := h _ (List.mem_of_getElem? hz)
    exact hset ⟨hlive.latched, hlive.submitting⟩
  | stop _ _ _ hz =>
    have hmem := List.mem_of_getElem? hz
    exact hset ((h _ hmem).stop (hs _ hmem))
  | finish _ _ _ hz =>
    have hlive := h _ (List.mem_of_getElem? hz)
    exact hset ⟨hlive.latched, hlive.submitting⟩
  | leave hz => exact hset ((h _ (List.mem_of_getElem? hz)).of_loop (by simp))
  | dispatch hz =>
    have hmem := List.mem_of_getElem? hz
    exact hset ((h _ hmem).dispatch (hs _ hmem) _ _ _)
  | @work _ _ z hz =>
    have hmem := List.mem_of_getElem? hz
    exact hset ((h _ hmem).of_pool (hs _ hmem) _ z.once)
  | _ => exact h

/-- No goroutine can make a step, loops of running consumers apart. -/
def Blocked (s : Host) : Prop := ∀ a, s.Winds a → s.act a = s

/-- The engine does not run, and nothing can be done to stop what runs. -/
structure Stuck (s : Host) : Prop where
  kept : s.Kept
  live : ∀ x ∈ s.all, x.Live
  running : s.crashed = false
  unstarted : s.rootCtx = none
  blocked : s.Blocked

namespace Stuck
variable (h : s.Stuck)
include h

theorem stays (ha : s.Winds a) : s.step a = s := by
  have hact := h.blocked a ha
  rwa [act, h.running, if_neg (by decide)] at hact

theorem phase_ne_cancel (hy : s.callers[t]? = some y) (root : Option ℕ) :
    y.phase ≠ .cancel root := by
  intro hphase
  have hsame := congrArg Host.callers (@stays s (.advance t) h trivial)
  simp only [step, advance, hy, hphase] at hsame
  have hphase' := congrArg Caller.phase ((set_eq_self_iff hy).mp hsame)
  rw [hphase] at hphase'
  cases hphase'

theorem root_cancelled {i : ℕ} {r : Root} (hr : s.roots[i]? = some r) : r.cancelled = true := by
  rcases h.kept.contexts.cancels i r hr with hc | hroot | ⟨y, hy, hphase⟩
  · exact hc
  · rw [h.unstarted] at hroot
    cases hroot
  · obtain ⟨t, ht⟩ := List.mem_iff_getElem?.mp hy
    exact absurd hphase (h.phase_ne_cancel ht _)

theorem not_maintaining {i : ℕ} {r : Root} (hr : s.roots[i]? = some r) : r.maintaining = false := by
  by_contra hmaintaining
  rw [Bool.not_eq_false] at hmaintaining
  have hsame := congrArg Host.roots (@stays s (.maintain i) h trivial)
  simp only [step, maintain, hr, h.root_cancelled hr, hmaintaining, and_self, if_true] at hsame
  have hr' := (set_eq_self_iff hr).mp hsame
  rw [← hr'] at hmaintaining
  cases hmaintaining

theorem cancelled (hx : s.all[c]? = some x) : s.cancelled x = true := by
  have hlt := h.kept.contexts.roots c x hx
  have hr := List.getElem?_eq_getElem hlt
  unfold Host.cancelled
  rw [hr, Option.any_some, h.root_cancelled hr, Bool.or_true]

theorem loop_ended (hx : s.all[c]? = some x) : x.loop = .ended := by
  have hwinds : s.Winds (.dispatch c none .done) := by
    simpa [Winds, hx] using h.cancelled hx
  have hsame := congrArg Host.all (h.stays hwinds)
  have hmem := List.mem_of_getElem? hx
  simp only [step, dispatch, hx] at hsame
  split_ifs at hsame with hl
  · have hl' := congrArg Consumer.loop ((set_eq_self_iff hx).mp hsame)
    rw [hl] at hl'
    cases hl'
  · rw [h.cancelled hx] at hsame
    have hx' := (set_eq_self_iff hx).mp hsame
    by_contra hended
    refine Consumer.dispatch_ne (h.live x hmem) (h.kept.sound x hmem) ?_ hx'
    cases hloop : x.loop <;> simp_all [Loop.done]

theorem wg_eq_zero : s.wg = 0 := by
  have hcounted : s.wg = _ := h.kept.counted
  rw [hcounted, Nat.add_eq_zero_iff, List.sum_eq_zero_iff, List.sum_eq_zero_iff]
  constructor
  · intro n hn
    obtain ⟨x, hx, rfl⟩ := List.mem_map.mp hn
    obtain ⟨c, hc⟩ := List.mem_iff_getElem?.mp hx
    exact if_pos (h.loop_ended hc)
  · intro n hn
    obtain ⟨r, hr, rfl⟩ := List.mem_map.mp hn
    obtain ⟨i, hi⟩ := List.mem_iff_getElem?.mp hr
    simp [Root.share, h.not_maintaining hi]

/-- A call that is inside a `sync.Once` goes on, or a worker of the consumer does. -/
theorem phase_ne_inside (hy : s.callers[t]? = some y) : y.phase ≠ .inside := by
  intro hphase
  obtain ⟨c, rest, htodo⟩ := List.exists_cons_of_ne_nil
    ((h.kept.fits y (List.mem_of_getElem? hy)).inside hphase)
  have htarget : s.targetAt t = some c := by
    rw [targetAt_of_some hy, Caller.target, if_pos hphase, htodo]
    rfl
  obtain ⟨stopping, honce⟩ := h.kept.exclusive.inside t c htarget
  obtain ⟨x, hx, ho⟩ := Option.map_eq_some_iff.mp honce
  have hmem := List.mem_of_getElem? hx
  have hadvance : s.step (.advance t) = s.stopNext t y c rest := by
    simp only [step, advance, hy, hphase, htodo]
  have hsame : s.stopNext t y c rest = s := hadvance.symm.trans (h.stays trivial)
  have hstop : ¬ (x.once = .running .inPool ∧ x.pool.stops[0]? = some .returned) →
      x.stop = x := by
    intro hnot
    simp only [stopNext, hx, hphase, ho] at hsame
    rw [if_neg (ho ▸ hnot)] at hsame
    exact (set_eq_self_iff hx).mp (congrArg Host.all hsame)
  cases stopping with
  | cancel =>
    have hx' := congrArg Consumer.once (hstop (by simp [ho]))
    simp [Consumer.stop, ho] at hx'
  | await =>
    have hx' := congrArg Consumer.once (hstop (by simp [ho]))
    simp [Consumer.stop, ho, h.loop_ended hx, Loop.done] at hx'
  | callPool =>
    have hx' := congrArg Consumer.once (hstop (by simp [ho]))
    simp [Consumer.stop, ho] at hx'
  | inPool =>
    obtain ⟨stopper, hs⟩ := (h.kept.sound x hmem).stopping ho
    by_cases hr : stopper = .returned
    · subst hr
      have hs0 : x.pool.stops[0]? = some .returned := by rw [hs]; rfl
      simp only [stopNext, hx, hphase, ho, hs0, and_self, if_true] at hsame
      have hphase' := congrArg Caller.phase ((set_eq_self_iff hy).mp (congrArg Host.callers hsame))
      rw [hphase] at hphase'
      cases hphase'
    · have hs0 : x.pool.stops[0]? ≠ some .returned := by
        rw [hs]
        simpa using hr
      have hsound := h.kept.sound x hmem
      rcases Worker.Pool.stop_goes_on hsound.consistent (h.live x hmem).latched hs hr with
        hne | ⟨k, hne⟩
      · have hx' := congrArg Consumer.pool (hstop (fun hnot => hs0 hnot.2))
        simp only [Consumer.stop, ho] at hx'
        exact hne hx'
      · have hwork := congrArg Host.all (@stays s (.work c k) h trivial)
        simp only [step, work, hx] at hwork
        exact hne (congrArg Consumer.pool ((set_eq_self_iff hx).mp hwork))

theorem phase_ne_enter (hy : s.callers[t]? = some y) : y.phase ≠ .enter := by
  intro hphase
  have hsame := congrArg Host.callers (@stays s (.advance t) h trivial)
  cases htodo : y.todo with
  | nil =>
    simp only [step, advance, hy, hphase, htodo] at hsame
    have hphase' := congrArg Caller.phase ((set_eq_self_iff hy).mp hsame)
    rw [hphase] at hphase'
    dsimp only at hphase'
    split_ifs at hphase'
  | cons c rest =>
    have hlt := (h.kept.fits y (List.mem_of_getElem? hy)).known c (by simp [htodo])
    obtain ⟨x, hx⟩ : ∃ x, s.all[c]? = some x := ⟨_, List.getElem?_eq_getElem hlt⟩
    simp only [step, advance, hy, hphase, htodo, stopNext, hx] at hsame
    cases ho : x.once with
    | fresh =>
      simp only [ho] at hsame
      have hphase' := congrArg Caller.phase ((set_eq_self_iff hy).mp hsame)
      rw [hphase] at hphase'
      cases hphase'
    | running stopping =>
      -- the call that is inside would go on
      have honce : s.onceAt c = some (.running stopping) := by rw [onceAt_of_some hx, ho]
      obtain ⟨u, hu⟩ := h.kept.exclusive.entered c stopping honce
      obtain ⟨z, hz, htarget⟩ := Option.bind_eq_some_iff.mp hu
      unfold Caller.target at htarget
      split_ifs at htarget with hinside
      exact h.phase_ne_inside hz hinside
    | finished =>
      simp only [ho] at hsame
      have htodo' := congrArg Caller.todo ((set_eq_self_iff hy).mp hsame)
      rw [htodo] at htodo'
      exact List.cons_ne_self c rest htodo'.symm

theorem returned (hy : s.callers[t]? = some y) : y.phase = .returned := by
  cases hphase : y.phase with
  | cancel root => exact absurd hphase (h.phase_ne_cancel hy root)
  | enter => exact absurd hphase (h.phase_ne_enter hy)
  | inside => exact absurd hphase (h.phase_ne_inside hy)
  | waitGroup =>
    have hsame := congrArg Host.callers (@stays s (.advance t) h trivial)
    simp only [step, advance, waitStep, hy, hphase, h.wg_eq_zero, if_true] at hsame
    have hphase' := congrArg Caller.phase ((set_eq_self_iff hy).mp hsame)
    rw [hphase] at hphase'
    cases hphase'
  | parked epoch =>
    have hold := (h.kept.parked y (List.mem_of_getElem? hy) epoch hphase).2.mt
      (not_not.mpr h.wg_eq_zero)
    have hsame := congrArg Host.callers (@stays s (.advance t) h trivial)
    simp only [step, advance, waitStep, hy, hphase, h.wg_eq_zero, if_true, if_neg hold] at hsame
    have hphase' := congrArg Caller.phase ((set_eq_self_iff hy).mp hsame)
    rw [hphase] at hphase'
    cases hphase'
  | returned => rfl

theorem answered (hy : s.callers[t]? = some y) (hkind : y.kind = .shutdown) :
    y.outcome ≠ none := by
  intro hnone
  have hsame := congrArg Host.callers (@stays s (.answer t .drained) h trivial)
  simp only [step, answer, hy, hkind, hnone, h.returned hy, Phase.cancelled, and_self, implies_true,
    if_true] at hsame
  have houtcome := congrArg Caller.outcome ((set_eq_self_iff hy).mp hsame)
  rw [hnone] at houtcome
  cases houtcome

end Stuck

theorem rootCtx_of_winds (ha : s.Winds a) : (s.act a).rootCtx = s.rootCtx := by
  have hm := act_moves s a
  generalize s.act a = s' at hm
  cases hm with
  | start | subscribe | shutdown => exact ha.elim
  | _ => rfl

/-- A step that changes something, of a goroutine that is there and no loop of a running
consumer. -/
def Progresses (s : Host) (a : Label) : Prop := s.Winds a ∧ s.act a ≠ s

instance (s : Host) (a : Label) : Decidable (s.Progresses a) :=
  inferInstanceAs (Decidable (_ ∧ _))

/-- Every call has returned, every `Shutdown` has its answer, and nothing runs. -/
structure Finished (s : Host) : Prop where
  still : s.Still
  returned : ∀ y ∈ s.callers, y.phase = .returned
  answered : ∀ y ∈ s.callers, y.kind = .shutdown → y.outcome ≠ none

theorem Stuck.finished (h : s.Stuck) : s.Finished := by
  have hreturned : ∀ y ∈ s.callers, y.phase = .returned := by
    intro y hy
    obtain ⟨t, ht⟩ := List.mem_iff_getElem?.mp hy
    exact h.returned ht
  refine ⟨h.kept.still h.unstarted hreturned, hreturned, fun y hy => ?_⟩
  obtain ⟨t, ht⟩ := List.mem_iff_getElem?.mp hy
  exact h.answered ht

theorem run_exited {p : Worker.Pool} (hexited : ∀ w ∈ p.workers, w = .exited) (k : ℕ) :
    p.act (.work k) = p := by
  simp only [Worker.Pool.act, Worker.Pool.run]
  cases hw : p.workers[k]? with
  | none => rfl
  | some w =>
    rw [hexited w (List.mem_of_getElem? hw)]

theorem Finished.stays (h : s.Finished) (ha : s.Winds a) : s.step a = s := by
  cases a with
  | advance t =>
    simp only [step, advance]
    cases hy : s.callers[t]? with
    | none => rfl
    | some y => simp only [h.returned y (List.mem_of_getElem? hy)]
  | answer t outcome =>
    simp only [step, answer]
    cases hy : s.callers[t]? with
    | none => rfl
    | some y => exact if_neg (fun hc => h.answered y (List.mem_of_getElem? hy) hc.1 hc.2.1)
  | dispatch c claimed choice =>
    simp only [step, dispatch]
    cases hx : s.all[c]? with
    | none => rfl
    | some x =>
      have hended := (h.still.consumers x (List.mem_of_getElem? hx)).1
      simp only [hended, Consumer.dispatch, setConsumer]
      rw [if_neg (by decide), (set_eq_self_iff hx).mpr rfl]
  | work c k =>
    simp only [step, work]
    cases hx : s.all[c]? with
    | none => rfl
    | some x =>
      have hstopped := (h.still.consumers x (List.mem_of_getElem? hx)).2
      simp only [run_exited hstopped.workers, setConsumer]
      rw [(set_eq_self_iff hx).mpr rfl]
  | maintain i =>
    simp only [step, maintain]
    cases hr : s.roots[i]? with
    | none => rfl
    | some r => simp [h.still.maintenance r (List.mem_of_getElem? hr)]
  | start | cancelParent | subscribe | unsubscribe | stopConsumer | shutdown => exact ha.elim

theorem Finished.blocked (h : s.Finished) (ha : s.Winds a) : s.act a = s := by
  unfold act
  split_ifs
  · rfl
  · exact h.stays ha

theorem act_of_crashed (h : s.crashed = true) (a : Label) : s.act a = s := if_pos h

/-! ## The wait group -/

/-- The counter leaves zero only while no call waits for it. -/
def AddsApart (s : Host) (a : Label) : Prop :=
  s.wg = 0 → (s.act a).wg ≠ 0 → ∀ y ∈ s.callers, y.phase.waits = false

instance (s : Host) (a : Label) : Decidable (s.AddsApart a) :=
  inferInstanceAs (Decidable (_ → _ → _))

/-- No call that has been woken meets a counter above zero. -/
structure Unraised (s : Host) : Prop where
  running : s.crashed = false
  woken : ∀ y ∈ s.callers, ∀ epoch, y.phase = .parked epoch → epoch ≠ s.epoch → s.wg = 0

theorem Unraised.act (h : Unraised s) (ha : s.AddsApart a) : Unraised (s.act a) := by
  have hadds : s.wg = 0 → (s.act a).wg ≠ 0 → ∀ y ∈ s.callers, y.phase.waits = false := ha
  have hm := act_moves s a
  generalize s.act a = s' at hm hadds
  constructor
  · cases hm with
    | crash hy hphase hepoch hwg =>
      exact absurd (h.woken _ (List.mem_of_getElem? hy) _ hphase hepoch) hwg
    | _ => exact h.running
  · intro y hy epoch hphase hepoch
    rcases hm.sleeper hy hphase with ⟨z, hz, hz'⟩ | ⟨heq, -⟩
    · rcases hm.group with ⟨hsame, -⟩ | ⟨hwg, hnext⟩
      · by_contra hne
        have hwaits := hadds (h.woken z hz epoch hz' (hsame ▸ hepoch)) hne z hz
        rw [hz'] at hwaits
        cases hwaits
      · split_ifs at hnext with hlast
        · omega
        · have := h.woken z hz epoch hz' (hnext ▸ hepoch)
          omega
    · exact absurd heq hepoch

theorem addsApart_of_winds (ha : s.Winds a) : s.AddsApart a := by
  intro hwg hne
  exfalso
  have hm := act_moves s a
  generalize s.act a = s' at hm hne
  cases hm with
  | start | subscribe => exact ha.elim
  | leave | maintain => exact hne (congrArg (· - 1) hwg)
  | _ => exact hne hwg

end Host

theorem ran_live (labels : List Label) : ∀ x ∈ (ran labels).all, x.Live := by
  have h : (ran labels).Kept ∧ ∀ x ∈ (ran labels).all, x.Live := by
    refine ran_rule (P := fun s => s.Kept ∧ ∀ x ∈ s.all, x.Live) ⟨Host.new_kept, ?_⟩ ?_ labels
    · exact fun _ hx => absurd hx List.not_mem_nil
    · exact fun _ _ _ h hm => ⟨h.1.moves hm, Host.live_moves h.1.sound h.2 hm⟩
  exact h.2

theorem ran_unstarted {labels more : List Label} (hroot : (ran labels).rootCtx = none)
    (hmore : StepsMeet Host.exec Host.Progresses (ran labels) more) :
    (ran (labels ++ more)).rootCtx = none := by
  rw [ran, after_append]
  exact @run_rule _ _ _ Host.exec _ (fun s _ => s.rootCtx = none)
    (fun s _ a ha hs => (Host.rootCtx_of_winds ha.1).trans hs) more (ran labels) [] hmore hroot

theorem ran_unraised {labels : List Label}
    (h : StepsMeet Host.exec Host.AddsApart Host.new labels) : (ran labels).Unraised := by
  have hnew : Host.new.Unraised := ⟨rfl, fun _ hy => absurd hy List.not_mem_nil⟩
  exact @run_rule _ _ _ Host.exec _ (fun s _ => s.Unraised)
    (fun s _ a ha hs => Host.Unraised.act hs ha) labels Host.new [] h hnew

/-- Once the engine does not run any more, however its goroutines are scheduled: they make at most
so many steps, and they cannot make another exactly if every call has returned, every `Shutdown`
has its answer and nothing of the engine runs, or if the process has panicked. It does not panic if
no `Start` or `Subscribe` raised the counter of the wait group from zero while a call waited for
it. -/
theorem shutdown_completes (labels more : List Label) (hroot : (ran labels).rootCtx = none)
    (hmore : StepsMeet Host.exec Host.Progresses (ran labels) more) :
    more.length ≤ (ran labels).weight ∧
      ((∀ a, ¬ (ran (labels ++ more)).Progresses a) ↔
        (ran (labels ++ more)).crashed = true ∨ (ran (labels ++ more)).Finished) ∧
      (StepsMeet Host.exec Host.AddsApart Host.new labels →
        (ran (labels ++ more)).crashed = false) := by
  refine ⟨?_, ⟨fun hend => ?_, ?_⟩, fun hapart => ?_⟩
  · have hlower : ∀ s a, s.Progresses a → (Host.exec a s).2.weight < s.weight :=
      fun s a ha => ((Host.act_moves s a).weight ha.1).resolve_left ha.2
    exact StepsMeet.length_le Host.exec hlower hmore
  · have hblocked : (ran (labels ++ more)).Blocked :=
      fun a ha => not_not.mp (fun hne => hend a ⟨ha, hne⟩)
    rcases Bool.eq_false_or_eq_true (ran (labels ++ more)).crashed with hcrashed | hrunning
    · exact Or.inl hcrashed
    · exact Or.inr (Host.Stuck.finished
        ⟨ran_kept _, ran_live _, hrunning, ran_unstarted hroot hmore, hblocked⟩)
  · rintro (hcrashed | hfinished) a ha
    · exact ha.2 (Host.act_of_crashed hcrashed a)
    · exact ha.2 (hfinished.blocked ha.1)
  · have hrest : StepsMeet Host.exec Host.AddsApart (ran labels) more :=
      hmore.mono _ (fun s a ha => Host.addsApart_of_winds ha.1)
    exact (ran_unraised (hapart.append _ hrest)).running

theorem shutdown_completes_drainedRun :
    (ran (drainedRun.take 9)).rootCtx = none ∧ (ran (drainedRun.take 9)).weight = 30 ∧
      (drainedRun.drop 9).length ≤ (ran (drainedRun.take 9)).weight ∧
      ((∀ a, ¬ (ran drainedRun).Progresses a) ↔
        (ran drainedRun).crashed = true ∨ (ran drainedRun).Finished) ∧
      (ran drainedRun).crashed = false := by
  have hroot : (ran (drainedRun.take 9)).rootCtx = none := by decide +kernel
  have hmore : StepsMeet Host.exec Host.Progresses (ran (drainedRun.take 9))
      (drainedRun.drop 9) := by decide +kernel
  have h := shutdown_completes _ _ hroot hmore
  exact ⟨hroot, by decide +kernel, h.1, h.2.1, h.2.2 (by decide +kernel)⟩

/-- `Start` is called again after the counter has come down to zero and before the `Wait` of the
`Shutdown` has returned. -/
example : (ran [.start, .shutdown [], .advance 0, .advance 0, .advance 0, .maintain 0, .start,
    .advance 0]).crashed = true := by decide +kernel

end RabbitmqLite.Engine.Lifecycle
