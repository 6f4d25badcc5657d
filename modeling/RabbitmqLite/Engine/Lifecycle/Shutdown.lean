import RabbitmqLite.Engine.Lifecycle.Calls

/-! # Shutting an engine down

The wait group counts the loops that run, and every context of an engine that
does not run is cancelled or about to be. When a `Shutdown` has returned nil the
consumers it found are stopped, and when no call is under way nothing runs.
-/

namespace RabbitmqLite.Engine.Lifecycle
open Atomic Collections

namespace Host
variable {s s' : Host} {a : Label} {c : ℕ} {x : Consumer}

/-! ## Contexts -/

/-- A context that `Start` made is that of the running engine or is cancelled, or a `Shutdown` is
about to cancel it. -/
structure Contexts (s : Host) : Prop where
  roots : ∀ (c : ℕ) (x : Consumer), s.all[c]? = some x → x.root < s.roots.length
  current : ∀ i, s.rootCtx = some i → i < s.roots.length
  cancels : ∀ i r, s.roots[i]? = some r → r.cancelled = true ∨ s.rootCtx = some i ∨
    ∃ y ∈ s.callers, y.phase = .cancel (some i)

theorem length_cancelCtx (s : Host) (root : Option ℕ) :
    (s.cancelCtx root).roots.length = s.roots.length := by
  cases root with
  | none => rfl
  | some i => exact List.length_modify _ _ _

/-- A step never cancels less. -/
theorem Moves.root (hm : Moves s a s') {i : ℕ} {r : Root} (hr : s.roots[i]? = some r) :
    ∃ r', s'.roots[i]? = some r' ∧ (r.cancelled = true → r'.cancelled = true) := by
  have hmodify : ∀ root, ∃ r', (s.cancelCtx root).roots[i]? = some r' ∧
      (r.cancelled = true → r'.cancelled = true) := by
    intro root
    cases root with
    | none => exact ⟨r, hr, id⟩
    | some j =>
      simp only [cancelCtx, List.getElem?_modify, hr]
      split_ifs
      · exact ⟨_, rfl, fun _ => rfl⟩
      · exact ⟨r, rfl, id⟩
  cases hm with
  | start =>
    obtain ⟨hlt, -⟩ := List.getElem?_eq_some_iff.mp hr
    exact ⟨r, by rw [List.getElem?_append_left hlt, hr], id⟩
  | cancelParent j => exact hmodify (some j)
  | cancel => exact hmodify _
  | maintain hz =>
    simp only [done_roots, getElem?_set_of_some hz]
    split_ifs with hji
    · subst hji
      obtain rfl := Option.some.inj (hz.symm.trans hr)
      exact ⟨_, rfl, id⟩
    · exact ⟨r, hr, id⟩
  | _ => exact ⟨r, hr, id⟩

theorem Moves.roots_length (hm : Moves s a s') : s.roots.length ≤ s'.roots.length := by
  by_contra hlt
  obtain ⟨r', hr', -⟩ := hm.root (List.getElem?_eq_getElem (not_le.mp hlt))
  exact lt_irrefl _ (List.getElem?_eq_some_iff.mp hr').1

/-- A `Shutdown` that is about to cancel a context stays so until it has. -/
theorem Moves.cancelling (hm : Moves s a s') {i : ℕ} {y : Caller} (hy : y ∈ s.callers)
    (hphase : y.phase = .cancel (some i)) :
    (∃ y' ∈ s'.callers, y'.phase = .cancel (some i)) ∨
      ∀ r, s'.roots[i]? = some r → r.cancelled = true := by
  have hother : ∀ {t : ℕ} {z z' : Caller}, s.callers[t]? = some z →
      z.phase ≠ .cancel (some i) → ∃ y' ∈ s.callers.set t z', y'.phase = .cancel (some i) := by
    intro t z z' hz hne
    rcases mem_set_or_eq hz z' hy with hmem | rfl
    · exact ⟨y, hmem, hphase⟩
    · exact absurd hphase hne
  cases hm with
  | unsubscribe | stopConsumer | shutdown => exact Or.inl ⟨y, List.mem_append_left _ hy, hphase⟩
  | @cancel t z root hz hp =>
    by_cases hroot : root = some i
    · right
      intro r hr
      subst hroot
      simp only [cancelCtx, setCaller, List.getElem?_modify, if_true, Option.map_eq_map,
        Option.map_eq_some_iff] at hr
      obtain ⟨r₀, -, rfl⟩ := hr
      rfl
    · exact Or.inl (hother hz (by rw [hp]; simpa using hroot))
  | dismiss hz hp => exact Or.inl (hother hz (by simp [hp]))
  | enter hz hp => exact Or.inl (hother hz (by simp [hp]))
  | skip hz hp => exact Or.inl (hother hz (by simp [hp]))
  | finish hz hp => exact Or.inl (hother hz (by simp [hp]))
  | wait hz hp => exact Or.inl (hother hz (fun hc => by rw [hc] at hp; cases hp))
  | park hz hp => exact Or.inl (hother hz (by simp [hp]))
  | @answer t z outcome hz =>
    left
    rcases mem_set_or_eq hz { z with outcome := some outcome } hy with hmem | rfl
    · exact ⟨y, hmem, hphase⟩
    · exact ⟨_, mem_set_self hz _, hphase⟩
  | _ => exact Or.inl ⟨y, hy, hphase⟩

theorem Contexts.moves (h : Contexts s) (hm : Moves s a s') : Contexts s' where
  roots := by
    intro c x hx
    rcases lt_or_ge c s.all.length with hlt | hge
    · obtain ⟨x', hx', -, hroot, -⟩ := hm.consumer (List.getElem?_eq_getElem hlt)
      rw [Option.some.inj (hx.symm.trans hx'), hroot]
      exact (h.roots c _ (List.getElem?_eq_getElem hlt)).trans_le hm.roots_length
    · exact (h.current _ (hm.subscribed hx hge).1).trans_le hm.roots_length
  current := by
    intro i hi
    have hle := hm.roots_length
    cases hm with
    | start =>
      rw [← Option.some.inj hi]
      simp
    | shutdown => cases hi
    | _ => exact (h.current i hi).trans_le hle
  cancels := by
    intro i r hr
    have hold : ∀ {r₀ : Root}, s.roots[i]? = some r₀ → s'.rootCtx = s.rootCtx →
        r.cancelled = true ∨ s'.rootCtx = some i ∨
          ∃ y ∈ s'.callers, y.phase = .cancel (some i) := by
      intro r₀ hr₀ hctx
      rcases h.cancels i r₀ hr₀ with hc | hroot | ⟨y, hy, hphase⟩
      · obtain ⟨r', hr', hmono⟩ := hm.root hr₀
        rw [Option.some.inj (hr.symm.trans hr')]
        exact Or.inl (hmono hc)
      · exact Or.inr (Or.inl (hctx.trans hroot))
      · rcases hm.cancelling hy hphase with hy' | hall
        · exact Or.inr (Or.inr hy')
        · exact Or.inl (hall r hr)
    obtain ⟨hlt, -⟩ := List.getElem?_eq_some_iff.mp hr
    cases hm with
    | start hroot =>
      rcases getElem?_snoc hr with hr | ⟨rfl, -⟩
      · rcases h.cancels i r hr with hc | hroot' | hy
        · exact Or.inl hc
        · rw [hroot] at hroot'
          cases hroot'
        · exact Or.inr (Or.inr hy)
      · exact Or.inr (Or.inl rfl)
    | shutdown =>
      rcases h.cancels i r hr with hc | hroot | ⟨y, hy, hphase⟩
      · exact Or.inl hc
      · exact Or.inr (Or.inr ⟨_, List.mem_append_right _ (List.mem_singleton_self _),
          congrArg Phase.cancel hroot⟩)
      · exact Or.inr (Or.inr ⟨y, List.mem_append_left _ hy, hphase⟩)
    | cancelParent => exact hold (List.getElem?_eq_getElem (length_cancelCtx s _ ▸ hlt)) rfl
    | cancel => exact hold (List.getElem?_eq_getElem (length_cancelCtx s _ ▸ hlt)) rfl
    | maintain =>
      rw [done_roots, List.length_set] at hlt
      exact hold (List.getElem?_eq_getElem hlt) rfl
    | _ => exact hold (List.getElem?_eq_getElem hlt) rfl

end Host

/-! ## The wait group -/

def Consumer.share (x : Consumer) : ℕ := if x.loop = .ended then 0 else 1

def Root.share (r : Root) : ℕ := if r.maintaining then 1 else 0

theorem Consumer.dispatch_ended (x : Consumer) (cancelled : Bool) (claimed : Option ℕ)
    (choice : Worker.Choice) :
    (x.dispatch cancelled claimed choice).loop = .ended ↔ x.loop = .ended := by
  unfold Consumer.dispatch
  cases hl : x.loop with
  | checking => cases cancelled <;> simp
  | claiming =>
    dsimp only
    split
    · cases cancelled <;> simp
    · simp
    · split_ifs <;> simp [hl]
  | handing left => cases left <;> simp
  | submitting i left =>
    dsimp only
    split_ifs <;> simp
  | waiting => simp
  | leaving => simp [hl]
  | ended => simp [hl]

theorem Consumer.share_eq {x x' : Consumer} (h : x'.loop = .ended ↔ x.loop = .ended) :
    x'.share = x.share := by
  unfold Consumer.share
  exact if_congr h rfl rfl

namespace Host
variable {s s' : Host} {a : Label}

/-- The wait group counts the loops that have not ended. -/
def Counted (s : Host) : Prop :=
  s.wg = (s.all.map Consumer.share).sum + (s.roots.map Root.share).sum

theorem map_share_cancelCtx (s : Host) (root : Option ℕ) :
    (s.cancelCtx root).roots.map Root.share = s.roots.map Root.share := by
  cases root with
  | none => rfl
  | some i =>
    refine List.ext_getElem? (fun j => ?_)
    simp only [cancelCtx, List.getElem?_map, List.getElem?_modify]
    split_ifs
    · cases s.roots[j]? <;> rfl
    · simp

/-- A consumer moves and its loop has ended as before. -/
theorem Counted.of_consumer (h : Counted s) {c : ℕ} {x x' : Consumer} (hx : s.all[c]? = some x)
    (hall : s'.all = s.all.set c x') (hroots : s'.roots = s.roots) (hwg : s'.wg = s.wg)
    (hended : x'.loop = .ended ↔ x.loop = .ended) : Counted s' := by
  have hsum := sum_map_set Consumer.share hx x'
  rw [Consumer.share_eq hended] at hsum
  unfold Counted at h ⊢
  rw [hall, hroots, hwg, h]
  omega

theorem Counted.moves (h : Counted s) (hm : Moves s a s') : Counted s' := by
  have hwg : s.wg = (s.all.map Consumer.share).sum + (s.roots.map Root.share).sum := h
  cases hm with
  | start =>
    simp only [Counted, List.map_append, List.sum_append, hwg]
    rfl
  | cancelParent =>
    simp only [Counted, map_share_cancelCtx]
    exact hwg
  | subscribe =>
    have hnew : ∀ spec root, (Consumer.subscribed spec root).share = 1 := fun _ _ => rfl
    simp only [Counted, List.map_append, List.sum_append, hwg, List.map_singleton,
      List.sum_singleton, hnew]
    omega
  | cancel =>
    simp only [Counted, setCaller, map_share_cancelCtx]
    exact hwg
  | enter _ _ _ hx => exact h.of_consumer hx rfl rfl rfl Iff.rfl
  | @stop _ _ _ _ x _ _ _ _ hx =>
    exact h.of_consumer hx rfl rfl rfl (by rw [x.stop_frame.2.2.1])
  | finish _ _ _ hx => exact h.of_consumer hx rfl rfl rfl Iff.rfl
  | @leave _ _ _ x hx hloop =>
    have hsum := sum_map_set Consumer.share hx { x with loop := .ended }
    have hold : x.share = 1 := by simp [Consumer.share, hloop]
    have hnew : ({ x with loop := .ended } : Consumer).share = 0 := rfl
    simp only [Counted, setConsumer, done_all, done_roots, done_wg]
    omega
  | @dispatch _ claimed choice x hx =>
    exact h.of_consumer hx rfl rfl rfl (x.dispatch_ended (s.cancelled x) claimed choice)
  | work hx => exact h.of_consumer hx rfl rfl rfl Iff.rfl
  | @maintain _ r hr _ hmaintaining =>
    have hsum := sum_map_set Root.share hr { r with maintaining := false }
    have hold : r.share = 1 := by simp [Root.share, hmaintaining]
    have hnew : ({ r with maintaining := false } : Root).share = 0 := rfl
    simp only [Counted, done_all, done_roots, done_wg]
    omega
  | _ => exact h

end Host

/-! ## Runs -/

namespace Host
variable {s s' : Host} {a : Label}

/-- Where the engine does not run, no loop does, or a `Shutdown` waits for it. -/
def Awaited (s : Host) : Prop :=
  s.rootCtx = none → s.wg = 0 ∨ ∃ y ∈ s.callers, y.kind = .shutdown ∧ y.phase ≠ .returned

theorem Awaited.moves (h : Awaited s) (hm : Moves s a s') : Awaited s' := by
  intro hroot
  have hother : ∀ {t : ℕ} {z z' : Caller}, s.callers[t]? = some z → s.rootCtx = none →
      (z.kind = .shutdown → z.phase ≠ .returned → z'.kind = .shutdown ∧ z'.phase ≠ .returned) →
      s.wg = 0 ∨ ∃ y ∈ s.callers.set t z', y.kind = .shutdown ∧ y.phase ≠ .returned := by
    intro t z z' hz hctx hkeep
    rcases h hctx with hwg | ⟨y, hy, hkind, hphase⟩
    · exact Or.inl hwg
    · rcases mem_set_or_eq hz z' hy with hmem | rfl
      · exact Or.inr ⟨y, hmem, hkind, hphase⟩
      · exact Or.inr ⟨z', mem_set_self hz z', hkeep hkind hphase⟩
  have hless : s.rootCtx = none → s.wg - 1 = 0 ∨
      ∃ y ∈ s.callers, y.kind = .shutdown ∧ y.phase ≠ .returned :=
    fun hctx => (h hctx).imp (fun hwg => by rw [hwg]) id
  cases hm with
  | start => cases hroot
  | subscribe hctx =>
    rw [hctx] at hroot
    cases hroot
  | unsubscribe | stopConsumer =>
    exact (h hroot).imp id (fun ⟨y, hy, hrest⟩ => ⟨y, List.mem_append_left _ hy, hrest⟩)
  | shutdown =>
    exact Or.inr ⟨_, List.mem_append_right _ (List.mem_singleton_self _), rfl, nofun⟩
  | cancel hz => exact hother hz hroot (fun hkind _ => ⟨hkind, nofun⟩)
  | dismiss hz =>
    refine hother hz hroot (fun hkind _ => ⟨hkind, ?_⟩)
    rw [if_pos hkind]
    exact nofun
  | enter hz => exact hother hz hroot (fun hkind _ => ⟨hkind, nofun⟩)
  | skip hz => exact hother hz hroot (fun hkind hphase => ⟨hkind, hphase⟩)
  | finish hz => exact hother hz hroot (fun hkind _ => ⟨hkind, nofun⟩)
  | wait _ _ hwg => exact Or.inl hwg
  | park hz => exact hother hz hroot (fun hkind _ => ⟨hkind, nofun⟩)
  | answer hz => exact hother hz hroot (fun hkind hphase => ⟨hkind, hphase⟩)
  | leave => exact hless hroot
  | maintain => exact hless hroot
  | _ => exact h hroot

/-- A step raises the counter, or it is a `Done`. -/
theorem Moves.group (hm : Moves s a s') :
    s'.epoch = s.epoch ∧ s.wg ≤ s'.wg ∨
      s'.wg = s.wg - 1 ∧ s'.epoch = if s.wg = 1 then s.epoch + 1 else s.epoch := by
  cases hm with
  | start | subscribe => exact Or.inl ⟨rfl, Nat.le_succ _⟩
  | leave | maintain => exact Or.inr ⟨rfl, rfl⟩
  | _ => exact Or.inl ⟨rfl, le_rfl⟩

/-- A call that sleeps in `Wait` has slept before, or found the counter above zero. -/
theorem Moves.sleeper (hm : Moves s a s') {y : Caller} (hy : y ∈ s'.callers) {epoch : ℕ}
    (hphase : y.phase = .parked epoch) :
    (∃ z ∈ s.callers, z.phase = .parked epoch) ∨ epoch = s'.epoch ∧ s'.wg ≠ 0 := by
  have hset : ∀ {t : ℕ} {z : Caller}, y ∈ s.callers.set t z → z.phase ≠ .parked epoch →
      ∃ z ∈ s.callers, z.phase = .parked epoch := by
    intro t z hy hz
    rcases List.mem_or_eq_of_mem_set hy with hy | rfl
    · exact ⟨y, hy, hphase⟩
    · exact absurd hphase hz
  have hnew : ∀ {z : Caller}, y ∈ s.callers ++ [z] → z.phase ≠ .parked epoch →
      ∃ z ∈ s.callers, z.phase = .parked epoch := by
    intro z hy hz
    rcases List.mem_append.mp hy with hy | hy
    · exact ⟨y, hy, hphase⟩
    · exact absurd hphase (List.mem_singleton.mp hy ▸ hz)
  cases hm with
  | unsubscribe | stopConsumer | shutdown => exact Or.inl (hnew hy nofun)
  | cancel | enter | finish | wait => exact Or.inl (hset hy nofun)
  | dismiss =>
    refine Or.inl (hset hy ?_)
    dsimp only
    split_ifs <;> exact nofun
  | skip hz hp => exact Or.inl (hset hy (by simp [hp]))
  | park hz hp hwg =>
    rcases List.mem_or_eq_of_mem_set hy with hy | rfl
    · exact Or.inl ⟨y, hy, hphase⟩
    · exact Or.inr ⟨(Phase.parked.inj hphase).symm, hwg⟩
  | @answer t z outcome hz =>
    rcases List.mem_or_eq_of_mem_set hy with hy | rfl
    · exact Or.inl ⟨y, hy, hphase⟩
    · exact Or.inl ⟨z, List.mem_of_getElem? hz, hphase⟩
  | _ => exact Or.inl ⟨y, hy, hphase⟩

/-- What sleeps in a `Wait` is woken by the time the counter is zero. -/
def Parked (s : Host) : Prop :=
  ∀ y ∈ s.callers, ∀ epoch, y.phase = .parked epoch →
    epoch ≤ s.epoch ∧ (epoch = s.epoch → s.wg ≠ 0)

theorem Parked.moves (h : Parked s) (hm : Moves s a s') : Parked s' := by
  intro y hy epoch hphase
  rcases hm.sleeper hy hphase with ⟨z, hz, hz'⟩ | ⟨rfl, hwg⟩
  · obtain ⟨hle, hne⟩ := h z hz epoch hz'
    rcases hm.group with ⟨hepoch, hwg⟩ | ⟨hwg, hepoch⟩
    · refine ⟨hepoch ▸ hle, fun heq => ?_⟩
      have := hne (heq.trans hepoch)
      omega
    · rw [hepoch, hwg]
      split_ifs with hlast
      · exact ⟨by omega, fun heq => by omega⟩
      · refine ⟨hle, fun heq => ?_⟩
        have := hne heq
        omega
  · exact ⟨le_rfl, fun _ => hwg⟩

/-- The invariant of an engine. -/
structure Kept (s : Host) : Prop where
  sound : ∀ x ∈ s.all, x.Sound
  registered : Registered s
  fits : ∀ y ∈ s.callers, y.Fits s
  exclusive : Exclusive s
  owned : Owned s
  contexts : Contexts s
  counted : Counted s
  awaited : Awaited s
  parked : Parked s

theorem Kept.moves (h : Kept s) (hm : Moves s a s') : Kept s' where
  sound := sound_moves h.sound hm
  registered := h.registered.moves hm
  fits := fits_moves h.registered h.fits hm
  exclusive := h.exclusive.protocol hm.protocol
  owned := h.owned.moves h.registered hm
  contexts := h.contexts.moves hm
  counted := h.counted.moves hm
  awaited := h.awaited.moves hm
  parked := h.parked.moves hm

theorem new_kept : Kept new where
  sound := fun _ hx => absurd hx List.not_mem_nil
  registered := ⟨List.nodup_nil, fun _ hp => absurd hp List.not_mem_nil⟩
  fits := fun _ hy => absurd hy List.not_mem_nil
  exclusive := by constructor <;> simp [onceAt, targetAt, new]
  owned := by simp [Owned, new]
  contexts := by constructor <;> simp [new]
  counted := rfl
  awaited := fun _ => Or.inl rfl
  parked := fun _ hy => absurd hy List.not_mem_nil

end Host

theorem ran_snoc (labels : List Label) (a : Label) :
    ran (labels ++ [a]) = (ran labels).act a := by
  unfold ran
  rw [after_append, after_singleton]
  rfl

/-- What holds of a new engine and is kept by every step holds after every run. -/
theorem ran_rule {P : Host → Prop} (hnew : P Host.new)
    (hmoves : ∀ s a s', P s → Host.Moves s a s' → P s') (labels : List Label) :
    P (ran labels) := by
  induction labels using List.reverseRecOn with
  | nil => exact hnew
  | append_singleton labels a ih =>
    rw [ran_snoc]
    exact hmoves _ a _ ih (Host.act_moves _ a)

theorem ran_kept (labels : List Label) : (ran labels).Kept :=
  ran_rule Host.new_kept (fun _ _ _ h hm => h.moves hm) labels

/-- A consumer is handed one task, and `Shutdown` is called before the task is run. -/
def drainedRun : List Label :=
  [.start, .subscribe true (.ok ⟨⟨"orders", true, 3, 30, ""⟩, 0⟩) ⟨"mailer", "orders", 1, 1, 0⟩,
   .dispatch 0 none .done, .dispatch 0 (some 1) .done, .dispatch 0 none .done,
   .dispatch 0 none (.send 0), .dispatch 0 none (.send 0), .dispatch 0 none (.send 0),
   .shutdown [0], .work 0 0, .work 0 0, .work 0 0,
   .advance 0, .advance 0, .advance 0,
   .dispatch 0 none .done, .dispatch 0 none .done, .dispatch 0 none .done, .maintain 0,
   .advance 0, .advance 0, .advance 0, .advance 0, .advance 0, .advance 0,
   .work 0 0, .work 0 0, .work 0 0,
   .advance 0, .advance 0, .advance 0, .advance 0, .answer 0 .drained]

/-- However the calls, the loops and the workers interleave: no goroutine of a pool of the engine
panics, no task is lost or run twice, and when a pool has stopped all its tasks were run. -/
theorem pools_orderly (labels : List Label) : ∀ x ∈ (ran labels).all, x.pool.Orderly :=
  fun x hx => ((ran_kept labels).sound x hx).consistent.orderly ((ran_kept labels).sound x hx).safe

theorem pools_orderly_drainedRun :
    ∃ x, (ran drainedRun).all[0]? = some x ∧ x.pool.executed = [0] ∧ x.pool.Orderly := by
  have hsome : ((ran drainedRun).all[0]?).map (fun x => x.pool.executed) = some [0] := by
    decide +kernel
  obtain ⟨x, hx, hexecuted⟩ := Option.map_eq_some_iff.mp hsome
  exact ⟨x, hx, hexecuted, pools_orderly drainedRun x (List.mem_of_getElem? hx)⟩

/-- The loop has ended, the workers have left, and every task the pool accepted was run once. -/
structure Consumer.Stopped (x : Consumer) : Prop where
  loop : x.loop.done = true
  workers : ∀ w ∈ x.pool.workers, w = .exited
  tasks : ∀ i, x.pool.Accepted i → x.pool.executed.count i = 1

theorem Consumer.Sound.stopped_of_finished {x : Consumer} (h : x.Sound) (ho : x.once = .finished) :
    x.Stopped := by
  have hreturned : Worker.Stopper.returned ∈ x.pool.stops := by
    rw [h.stopped ho]
    exact List.mem_singleton_self _
  exact ⟨h.done (Or.inr (by rw [ho]; rfl)), h.consistent.stops.ended hreturned,
    fun i hi => h.consistent.executed_of_ended hreturned hi⟩

namespace Host.Kept
variable {s : Host} (h : s.Kept)
include h

theorem unregistered (hroot : s.rootCtx = none) : s.consumers = [] := by
  rw [List.eq_nil_iff_forall_not_mem]
  intro p hp
  obtain ⟨x, -, -, hsome⟩ := h.registered.found p hp
  rw [hroot] at hsome
  cases hsome

theorem accounted {c : ℕ} {x : Consumer} (hx : s.all[c]? = some x) :
    (x.spec.name, c) ∈ s.consumers ∨ x.Stopped ∨
      ∃ y ∈ s.callers, y.phase ≠ .returned ∧ c ∈ y.todo := by
  rcases h.owned c x hx with ho | hc | ⟨y, hy, hc⟩
  · exact Or.inr (Or.inl ((h.sound x (List.mem_of_getElem? hx)).stopped_of_finished ho))
  · obtain ⟨p, hp, rfl⟩ := List.mem_map.mp hc
    obtain ⟨x', hx', hname, -⟩ := h.registered.found p hp
    rw [Option.some.inj (hx.symm.trans hx'), hname]
    exact Or.inl hp
  · refine Or.inr (Or.inr ⟨y, hy, fun hphase => ?_, hc⟩)
    rw [(h.fits y hy).idle (Or.inr hphase)] at hc
    cases hc

end Host.Kept

/-- The consumers are always accounted for: their names are distinct, none is registered while
the engine does not run, and one that is not registered is stopped or a call is about to stop
it. -/
theorem consumers_accounted (labels : List Label) :
    ((ran labels).consumers.map Prod.fst).Nodup ∧
      ((ran labels).rootCtx = none → (ran labels).consumers = []) ∧
      ∀ c x, (ran labels).all[c]? = some x →
        (x.spec.name, c) ∈ (ran labels).consumers ∨ x.Stopped ∨
          ∃ y ∈ (ran labels).callers, y.phase ≠ .returned ∧ c ∈ y.todo :=
  ⟨(ran_kept labels).registered.names, (ran_kept labels).unregistered,
    fun _ _ hx => (ran_kept labels).accounted hx⟩

/-- When a `Shutdown` has returned nil, every consumer it found is stopped and all its tasks were
run. -/
theorem shutdown_drains (labels : List Label) (t : ℕ) (y : Caller)
    (hy : (ran labels).callers[t]? = some y) (hnil : y.outcome = some .drained) :
    ∀ c ∈ y.taken, ∃ x, (ran labels).all[c]? = some x ∧ x.Stopped := by
  have h := ran_kept labels
  have hfits := h.fits y (List.mem_of_getElem? hy)
  obtain ⟨gone, htaken, hgone⟩ := hfits.taken
  intro c hc
  rw [htaken, hfits.idle (Or.inr (hfits.drained hnil)), List.append_nil] at hc
  obtain ⟨x, hx, ho⟩ := hgone c hc
  exact ⟨x, hx, (h.sound x (List.mem_of_getElem? hx)).stopped_of_finished ho⟩

theorem shutdown_drains_drainedRun :
    (ran drainedRun).callers[0]? = some ⟨.shutdown, [0], [], .returned, some .drained⟩ ∧
      ((ran drainedRun).all.map (fun x => x.pool.executed)) = [[0]] ∧
      ∃ x, (ran drainedRun).all[0]? = some x ∧ x.Stopped := by
  have hy : (ran drainedRun).callers[0]? = some ⟨.shutdown, [0], [], .returned, some .drained⟩ := by
    decide +kernel
  exact ⟨hy, by decide +kernel, shutdown_drains drainedRun 0 _ hy rfl 0 (List.mem_singleton_self 0)⟩

/-- Nothing of the engine runs, and the wait group counts nothing. -/
structure Host.Still (s : Host) : Prop where
  waitGroup : s.wg = 0
  consumers : ∀ x ∈ s.all, x.loop = .ended ∧ x.Stopped
  maintenance : ∀ r ∈ s.roots, r.maintaining = false

theorem Host.Kept.still {s : Host} (h : s.Kept) (hroot : s.rootCtx = none)
    (hcalls : ∀ y ∈ s.callers, y.phase = .returned) : s.Still := by
  have hwg : s.wg = 0 := by
    refine (h.awaited hroot).resolve_right ?_
    rintro ⟨y, hy, -, hphase⟩
    exact hphase (hcalls y hy)
  have hzero : (s.all.map Consumer.share).sum = 0 ∧ (s.roots.map Root.share).sum = 0 := by
    have hcounted : s.wg = _ := h.counted
    omega
  refine ⟨hwg, fun x hx => ⟨?_, ?_⟩, fun r hr => ?_⟩
  · have hshare := List.sum_eq_zero_iff.mp hzero.1 _ (List.mem_map_of_mem hx)
    by_contra hloop
    simp [Consumer.share, hloop] at hshare
  · obtain ⟨c, hc⟩ := List.mem_iff_getElem?.mp hx
    rcases h.accounted hc with hp | hstopped | ⟨y, hy, hphase, -⟩
    · rw [h.unregistered hroot] at hp
      cases hp
    · exact hstopped
    · exact absurd (hcalls y hy) hphase
  · have hshare := List.sum_eq_zero_iff.mp hzero.2 _ (List.mem_map_of_mem hr)
    by_contra hmaintaining
    simp [Root.share, hmaintaining] at hshare

end RabbitmqLite.Engine.Lifecycle
