import RabbitmqLite.Engine.Lifecycle.Consumers

/-! # The calls that stop consumers

A consumer leaves the registry together with a call that is going to stop it,
and one call at most is inside its `sync.Once`. So a consumer is registered,
stopped, or in the hands of a call, at every moment.
-/

namespace RabbitmqLite.Engine.Lifecycle
open Atomic Collections

/-! ## The registered consumers -/

namespace Host
variable {s s' : Host} {a : Label}

/-- The names are distinct, and what is registered belongs to the running engine. -/
structure Registered (s : Host) : Prop where
  names : (s.consumers.map Prod.fst).Nodup
  found : ∀ p ∈ s.consumers, ∃ x, s.all[p.2]? = some x ∧ x.spec.name = p.1 ∧
    s.rootCtx = some x.root

/-- Where no consumer is registered or unregistered and the context stays. -/
theorem Registered.keep (h : Registered s) (hm : Moves s a s')
    (hsub : s'.consumers.Sublist s.consumers) (hctx : s'.rootCtx = s.rootCtx) :
    Registered s' where
  names := h.names.sublist (hsub.map Prod.fst)
  found := by
    intro p hp
    obtain ⟨x, hx, hname, hroot⟩ := h.found p (hsub.subset hp)
    obtain ⟨x', hx', hspec, hroot', -⟩ := hm.consumer hx
    exact ⟨x', hx', by rw [hspec, hname], by rw [hctx, hroot, hroot']⟩

theorem Registered.moves (h : Registered s) (hm : Moves s a s') : Registered s' := by
  have hkeep := h.keep hm
  cases hm with
  | start hroot =>
    have hnone : s.consumers = [] := by
      rw [List.eq_nil_iff_forall_not_mem]
      intro p hp
      obtain ⟨x, -, -, hsome⟩ := h.found p hp
      rw [hroot] at hsome
      cases hsome
    exact ⟨h.names, by simp [hnone]⟩
  | @subscribe queue spec root hroot hnew =>
    refine ⟨List.nodup_cons.mpr ⟨hnew, h.names⟩, fun p hp => ?_⟩
    rcases List.mem_cons.mp hp with rfl | hp
    · exact ⟨_, List.getElem?_concat_length, rfl, hroot⟩
    · obtain ⟨x, hx, hrest⟩ := h.found p hp
      obtain ⟨hlt, -⟩ := List.getElem?_eq_some_iff.mp hx
      exact ⟨x, by rw [List.getElem?_append_left hlt, hx], hrest⟩
  | unsubscribe => exact hkeep List.filter_sublist rfl
  | shutdown => exact ⟨List.nodup_nil, nofun⟩
  | _ => exact hkeep (List.Sublist.refl _) rfl

theorem Registered.lt_length (h : Registered s) {c : ℕ} (hc : c ∈ s.consumers.map Prod.snd) :
    c < s.all.length := by
  obtain ⟨p, hp, rfl⟩ := List.mem_map.mp hc
  obtain ⟨x, hx, -⟩ := h.found p hp
  exact (List.getElem?_eq_some_iff.mp hx).1

end Host

/-! ## The calls that stop consumers -/

/-- What a call has done so far: the consumers it took and has not still to stop are stopped. -/
structure Caller.Fits (s : Host) (y : Caller) : Prop where
  idle : y.phase.waits = true ∨ y.phase = .returned → y.todo = []
  inside : y.phase = .inside → y.todo ≠ []
  drained : y.outcome = some .drained → y.phase = .returned
  known : ∀ c ∈ y.todo, c < s.all.length
  taken : ∃ gone, y.taken = gone ++ y.todo ∧
    ∀ c ∈ gone, ∃ x, s.all[c]? = some x ∧ x.once = .finished

/-- The consumer whose `sync.Once` the call is inside. -/
def Caller.target (y : Caller) : Option ℕ := if y.phase = .inside then y.todo.head? else none

namespace Host
variable {s s' : Host} {a : Label} {c : ℕ} {x : Consumer}

theorem Moves.finished (hm : Moves s a s') (hx : s.all[c]? = some x) (ho : x.once = .finished) :
    ∃ x', s'.all[c]? = some x' ∧ x'.once = .finished := by
  obtain ⟨x', hx', -, -, honce⟩ := hm.consumer hx
  exact ⟨x', hx', (ho ▸ honce).of_finished⟩

theorem Moves.length_le (hm : Moves s a s') : s.all.length ≤ s'.all.length := by
  by_contra hlt
  obtain ⟨x', hx', -⟩ := hm.consumer (List.getElem?_eq_getElem (not_le.mp hlt))
  exact lt_irrefl _ (List.getElem?_eq_some_iff.mp hx').1

theorem fits_keep {y : Caller} (h : y.Fits s) (hm : Moves s a s') : y.Fits s' where
  idle := h.idle
  inside := h.inside
  drained := h.drained
  known := fun c hc => (h.known c hc).trans_le hm.length_le
  taken := by
    obtain ⟨gone, htaken, hgone⟩ := h.taken
    refine ⟨gone, htaken, fun c hc => ?_⟩
    obtain ⟨x, hx, ho⟩ := hgone c hc
    exact hm.finished hx ho

/-- A call goes on to the next consumer when one is stopped. -/
theorem fits_next {y : Caller} {rest : List ℕ} (h : y.Fits s) (htodo : y.todo = c :: rest)
    (hphase : y.phase = .enter ∨ y.phase = .inside) (hx : s.all[c]? = some x)
    (ho : x.once = .finished) : ({ y with todo := rest, phase := .enter } : Caller).Fits s where
  idle := by simp [Phase.waits]
  inside := nofun
  drained := by
    intro hd
    rw [h.drained hd] at hphase
    simp at hphase
  known := fun d hd => h.known d (by rw [htodo]; exact List.mem_cons_of_mem c hd)
  taken := by
    obtain ⟨gone, htaken, hgone⟩ := h.taken
    refine ⟨gone ++ [c], by rw [htaken, htodo]; simp, fun d hd => ?_⟩
    rcases List.mem_append.mp hd with hd | hd
    · exact hgone d hd
    · rw [List.mem_singleton.mp hd]
      exact ⟨x, hx, ho⟩

theorem fits_new {kind : Kind} {order : List ℕ} {phase : Phase}
    (hphase : phase = .enter ∨ ∃ root, phase = .cancel root) (hlt : ∀ c ∈ order, c < s.all.length) :
    (⟨kind, order, order, phase, none⟩ : Caller).Fits s := by
  refine ⟨?_, ?_, nofun, hlt, [], rfl, nofun⟩ <;> rcases hphase with rfl | ⟨root, rfl⟩ <;>
    simp [Phase.waits]

theorem fits_moves (hreg : Registered s) (h : ∀ y ∈ s.callers, y.Fits s) (hm : Moves s a s') :
    ∀ y ∈ s'.callers, y.Fits s' := by
  have hkeep : ∀ y ∈ s.callers, y.Fits s' := fun y hy => fits_keep (h y hy) hm
  have hset : ∀ {t : ℕ} {z : Caller}, z.Fits s' → ∀ y ∈ s.callers.set t z, y.Fits s' := by
    intro t z hz y hy
    rcases List.mem_or_eq_of_mem_set hy with hy | rfl
    · exact hkeep y hy
    · exact hz
  have hnew : ∀ {z : Caller}, z.Fits s' → ∀ y ∈ s.callers ++ [z], y.Fits s' := by
    intro z hz y hy
    rcases List.mem_append.mp hy with hy | hy
    · exact hkeep y hy
    · rw [List.mem_singleton.mp hy]
      exact hz
  cases hm with
  | unsubscribe hc =>
    refine hnew (fits_new (Or.inl rfl) (fun d hd => ?_))
    rw [List.mem_singleton.mp hd]
    exact hreg.lt_length (List.mem_map_of_mem (mem_of_lookup hc))
  | stopConsumer hx =>
    refine hnew (fits_new (Or.inl rfl) (fun d hd => ?_))
    rw [List.mem_singleton.mp hd]
    exact (List.getElem?_eq_some_iff.mp hx).1
  | shutdown hperm =>
    exact hnew (fits_new (Or.inr ⟨_, rfl⟩) (fun d hd => hreg.lt_length (hperm.subset hd)))
  | cancel hy hphase =>
    have hf := hkeep _ (List.mem_of_getElem? hy)
    refine hset ⟨by simp [Phase.waits], nofun, fun hd => ?_, hf.known, hf.taken⟩
    rw [hf.drained hd] at hphase
    cases hphase
  | dismiss hy hphase htodo =>
    have hf := hkeep _ (List.mem_of_getElem? hy)
    refine hset ⟨fun _ => htodo, fun hi => ?_, fun hd => ?_, hf.known, hf.taken⟩
    · dsimp only at hi
      split_ifs at hi
    · rw [hf.drained hd] at hphase
      cases hphase
  | enter hy hphase htodo =>
    have hf := hkeep _ (List.mem_of_getElem? hy)
    refine hset ⟨by simp [Phase.waits], fun _ => by simp [htodo], fun hd => ?_, hf.known, hf.taken⟩
    rw [hf.drained hd] at hphase
    cases hphase
  | @skip _ _ y _ _ hy hphase htodo hx ho =>
    have hf := hkeep _ (List.mem_of_getElem? hy)
    have hnext := fits_next hf htodo (Or.inl hphase) hx ho
    rw [← hphase] at hnext
    exact hset hnext
  | @finish _ c _ _ x hy hphase htodo hx =>
    have hf := hkeep _ (List.mem_of_getElem? hy)
    have hx' : (s.setConsumer c { x with once := .finished }).all[c]? =
        some { x with once := .finished } := (getElem?_setConsumer hx c).trans (if_pos rfl)
    exact hset (fits_next hf htodo (Or.inr hphase) hx' rfl)
  | wait hy hphase =>
    have hf := hkeep _ (List.mem_of_getElem? hy)
    exact hset ⟨fun _ => hf.idle (Or.inl hphase), nofun, fun _ => rfl, hf.known, hf.taken⟩
  | park hy hphase =>
    have hf := hkeep _ (List.mem_of_getElem? hy)
    refine hset ⟨fun _ => hf.idle (Or.inl (by rw [hphase]; rfl)), nofun, fun hd => ?_, hf.known,
      hf.taken⟩
    rw [hf.drained hd] at hphase
    cases hphase
  | answer hy hdrained =>
    have hf := hkeep _ (List.mem_of_getElem? hy)
    exact hset ⟨hf.idle, hf.inside, fun hd => hdrained (Option.some.inj hd), hf.known, hf.taken⟩
  | _ => exact hkeep

/-! ## Who is inside a `sync.Once` -/

def targetAt (s : Host) (t : ℕ) : Option ℕ := (s.callers[t]?).bind Caller.target

def onceAt (s : Host) (c : ℕ) : Option Once := (s.all[c]?).map Consumer.once

/-- The function of a `sync.Once` runs exactly if one call is inside, and never two. -/
structure Exclusive (s : Host) : Prop where
  entered : ∀ c stopping, s.onceAt c = some (.running stopping) → ∃ t, s.targetAt t = some c
  inside : ∀ t c, s.targetAt t = some c → ∃ stopping, s.onceAt c = some (.running stopping)
  alone : ∀ t u c, s.targetAt t = some c → s.targetAt u = some c → t = u

/-- What a step does to the calls inside and to the states of the `sync.Once`s. -/
inductive Protocol (s s' : Host) : Prop
  | keep (htarget : ∀ t, s'.targetAt t = s.targetAt t)
      (honce : ∀ c, s'.onceAt c = s.onceAt c ∨ s.onceAt c = none ∧ s'.onceAt c = some .fresh ∨
        ∃ i j, s.onceAt c = some (.running i) ∧ s'.onceAt c = some (.running j))
  | enter (t c : ℕ) (hfresh : s.onceAt c = some .fresh) (houtside : s.targetAt t = none)
      (htarget : ∀ u, s'.targetAt u = if t = u then some c else s.targetAt u)
      (honce : ∀ d, s'.onceAt d = if c = d then some (.running .cancel) else s.onceAt d)
  | finish (t c : ℕ) (hinside : s.targetAt t = some c)
      (htarget : ∀ u, s'.targetAt u = if t = u then none else s.targetAt u)
      (honce : ∀ d, s'.onceAt d = if c = d then some .finished else s.onceAt d)

theorem Exclusive.keep (h : Exclusive s) (htarget : ∀ t, s'.targetAt t = s.targetAt t)
    (honce : ∀ c, s'.onceAt c = s.onceAt c ∨ s.onceAt c = none ∧ s'.onceAt c = some .fresh ∨
      ∃ i j, s.onceAt c = some (.running i) ∧ s'.onceAt c = some (.running j)) :
    Exclusive s' := by
  refine ⟨fun c i hi => ?_, fun t c ht => ?_, fun t u c ht hu => ?_⟩
  · simp only [htarget]
    rcases honce c with hc | ⟨-, hc⟩ | ⟨i', -, hc, -⟩
    · exact h.entered c i (hc ▸ hi)
    · rw [hc] at hi
      cases hi
    · exact h.entered c i' hc
  · rw [htarget] at ht
    obtain ⟨i, hi⟩ := h.inside t c ht
    rcases honce c with hc | ⟨hc, -⟩ | ⟨-, j, -, hc⟩
    · exact ⟨i, hc.trans hi⟩
    · rw [hi] at hc
      cases hc
    · exact ⟨j, hc⟩
  · rw [htarget] at ht hu
    exact h.alone t u c ht hu

theorem Exclusive.enter (h : Exclusive s) {t c : ℕ} (hfresh : s.onceAt c = some .fresh)
    (houtside : s.targetAt t = none)
    (htarget : ∀ u, s'.targetAt u = if t = u then some c else s.targetAt u)
    (honce : ∀ d, s'.onceAt d = if c = d then some (.running .cancel) else s.onceAt d) :
    Exclusive s' := by
  -- nobody was inside before
  have hnobody : ∀ u, s.targetAt u ≠ some c := by
    intro u hu
    obtain ⟨i, hi⟩ := h.inside u c hu
    rw [hfresh] at hi
    cases hi
  refine ⟨fun d i hi => ?_, fun u d hu => ?_, fun u v d hu hv => ?_⟩
  · rw [honce] at hi
    split_ifs at hi with hcd
    · exact ⟨t, by rw [htarget, if_pos rfl, hcd]⟩
    · obtain ⟨u, hu⟩ := h.entered d i hi
      refine ⟨u, ?_⟩
      rw [htarget, if_neg, hu]
      rintro rfl
      rw [houtside] at hu
      cases hu
  · rw [htarget] at hu
    rw [honce]
    split_ifs at hu with htu
    · obtain rfl := Option.some.inj hu
      exact ⟨.cancel, if_pos rfl⟩
    · rw [if_neg (by rintro rfl; exact hnobody u hu)]
      exact h.inside u d hu
  · rw [htarget] at hu hv
    split_ifs at hu hv with htu htv
    · exact htu.symm.trans htv
    · exact absurd (hv.trans hu.symm) (by rw [hu]; exact Option.some.inj hu ▸ hnobody v)
    · exact absurd (hu.trans hv.symm) (by rw [hv]; exact Option.some.inj hv ▸ hnobody u)
    · exact h.alone u v d hu hv

theorem Exclusive.finish (h : Exclusive s) {t c : ℕ} (hinside : s.targetAt t = some c)
    (htarget : ∀ u, s'.targetAt u = if t = u then none else s.targetAt u)
    (honce : ∀ d, s'.onceAt d = if c = d then some .finished else s.onceAt d) :
    Exclusive s' := by
  refine ⟨fun d i hi => ?_, fun u d hu => ?_, fun u v d hu hv => ?_⟩
  · rw [honce] at hi
    split_ifs at hi with hcd
    · cases hi
    · obtain ⟨u, hu⟩ := h.entered d i hi
      refine ⟨u, ?_⟩
      rw [htarget, if_neg, hu]
      rintro rfl
      exact hcd (Option.some.inj (hinside.symm.trans hu))
  · rw [htarget] at hu
    rw [honce]
    split_ifs at hu with htu
    rw [if_neg]
    · exact h.inside u d hu
    · rintro rfl
      exact htu (h.alone t u c hinside hu)
  · rw [htarget] at hu hv
    split_ifs at hu hv
    exact h.alone u v d hu hv

theorem Exclusive.protocol (h : Exclusive s) (hp : Protocol s s') : Exclusive s' := by
  cases hp with
  | keep htarget honce => exact h.keep htarget honce
  | enter t c hfresh houtside htarget honce => exact h.enter hfresh houtside htarget honce
  | finish t c hinside htarget honce => exact h.finish hinside htarget honce

/-! What the steps do in these terms. -/

theorem targetAt_setCaller {t : ℕ} {y z : Caller} (hy : s.callers[t]? = some y) (u : ℕ) :
    (s.setCaller t z).targetAt u = if t = u then z.target else s.targetAt u := by
  unfold targetAt
  rw [setCaller, getElem?_set_of_some hy]
  split_ifs <;> rfl

theorem targetAt_of_some {t : ℕ} {y : Caller} (hy : s.callers[t]? = some y) :
    s.targetAt t = y.target := by
  unfold targetAt
  rw [hy]
  rfl

theorem onceAt_setConsumer {z : Consumer} (hx : s.all[c]? = some x) (d : ℕ) :
    (s.setConsumer c z).onceAt d = if c = d then some z.once else s.onceAt d := by
  unfold onceAt
  rw [getElem?_setConsumer hx]
  split_ifs <;> rfl

theorem onceAt_of_some (hx : s.all[c]? = some x) : s.onceAt c = some x.once := by
  unfold onceAt
  rw [hx]
  rfl

/-- A call that moves outside of a `sync.Once`. -/
theorem Protocol.of_caller {t : ℕ} {y z : Caller} (hy : s.callers[t]? = some y)
    (hcallers : s'.callers = s.callers.set t z) (hall : s'.all = s.all)
    (htarget : z.target = y.target) : Protocol s s' := by
  refine .keep (fun u => ?_) (fun c => Or.inl ?_)
  · have hset : s'.targetAt u = (s.setCaller t z).targetAt u := by
      unfold targetAt
      rw [hcallers]
      rfl
    rw [hset, targetAt_setCaller hy]
    split_ifs with htu
    · rw [htarget, ← htu, targetAt_of_some hy]
    · rfl
  · unfold onceAt
    rw [hall]

/-- A new call is not inside. -/
theorem Protocol.of_call {z : Caller} (hcallers : s'.callers = s.callers ++ [z])
    (hall : s'.all = s.all) (htarget : z.target = none) : Protocol s s' := by
  refine .keep (fun u => ?_) (fun c => Or.inl ?_)
  · unfold targetAt
    rw [hcallers]
    rcases lt_or_ge u s.callers.length with hlt | hge
    · rw [List.getElem?_append_left hlt]
    · rw [List.getElem?_append_right hge, List.getElem?_eq_none hge]
      cases u - s.callers.length with
      | zero => exact htarget
      | succ n => rfl
  · unfold onceAt
    rw [hall]

/-- A consumer moves and its `sync.Once` stays or goes on. -/
theorem Protocol.of_consumer {z : Consumer} (hx : s.all[c]? = some x)
    (hall : s'.all = s.all.set c z) (hcallers : s'.callers = s.callers)
    (honce : z.once = x.once ∨ ∃ i j, x.once = .running i ∧ z.once = .running j) :
    Protocol s s' := by
  refine .keep (fun u => ?_) (fun d => ?_)
  · unfold targetAt
    rw [hcallers]
  · have hset : s'.onceAt d = (s.setConsumer c z).onceAt d := by
      unfold onceAt
      rw [hall]
      rfl
    rw [hset, onceAt_setConsumer hx]
    split_ifs with hcd
    · rw [← hcd, onceAt_of_some hx]
      rcases honce with ho | ⟨i, j, hi, hj⟩
      · exact Or.inl (congrArg some ho)
      · exact Or.inr (Or.inr ⟨i, j, congrArg some hi, congrArg some hj⟩)
    · exact Or.inl rfl

theorem Protocol.of_eq (hcallers : s'.callers = s.callers) (hall : s'.all = s.all) :
    Protocol s s' := by
  refine .keep (fun u => ?_) (fun d => Or.inl ?_)
  · unfold targetAt
    rw [hcallers]
  · unfold onceAt
    rw [hall]

theorem Moves.protocol (hm : Moves s a s') : Protocol s s' := by
  cases hm with
  | subscribe =>
    refine .keep (fun u => rfl) (fun d => ?_)
    rcases lt_trichotomy d s.all.length with hlt | rfl | hgt
    · left
      unfold onceAt
      rw [List.getElem?_append_left hlt]
    · right
      left
      unfold onceAt
      rw [List.getElem?_eq_none le_rfl, List.getElem?_concat_length]
      exact ⟨rfl, rfl⟩
    · left
      unfold onceAt
      rw [List.getElem?_eq_none hgt.le, List.getElem?_eq_none (by simpa using hgt)]
  | unsubscribe => exact .of_call rfl rfl rfl
  | stopConsumer => exact .of_call rfl rfl rfl
  | shutdown => exact .of_call rfl rfl rfl
  | cancel hy hphase => exact .of_caller hy rfl rfl (by simp [Caller.target, hphase])
  | dismiss hy hphase htodo =>
    refine .of_caller hy rfl rfl ?_
    unfold Caller.target
    rw [hphase, htodo]
    split_ifs <;> rfl
  | @enter t c y rest x hy hphase htodo hx honce =>
    refine .enter t c ((onceAt_of_some hx).trans (congrArg some honce)) ?_ (fun u => ?_)
      (fun d => ?_)
    · rw [targetAt_of_some hy]
      simp [Caller.target, hphase]
    · have hy' : (s.setConsumer c { x with once := .running .cancel }).callers[t]? = some y := hy
      rw [targetAt_setCaller hy']
      simp only [Caller.target, if_true, htodo, List.head?_cons]
      rfl
    · exact onceAt_setConsumer hx d
  | skip hy hphase => exact .of_caller hy rfl rfl (by simp [Caller.target, hphase])
  | @stop _ _ _ _ x _ _ _ _ hx =>
    exact .of_consumer hx rfl rfl x.stop_frame.2.2.2
  | @finish t c y rest x hy hphase htodo hx honce =>
    refine .finish t c ?_ (fun u => ?_) (fun d => ?_)
    · rw [targetAt_of_some hy]
      simp [Caller.target, hphase, htodo]
    · have hy' : (s.setConsumer c { x with once := .finished }).callers[t]? = some y := hy
      rw [targetAt_setCaller hy']
      rfl
    · exact onceAt_setConsumer hx d
  | @wait _ y hy hphase =>
    refine .of_caller hy rfl rfl ?_
    unfold Caller.target
    cases hy' : y.phase <;> simp_all [Phase.waits]
  | park hy hphase => exact .of_caller hy rfl rfl (by simp [Caller.target, hphase])
  | answer hy => exact .of_caller hy rfl rfl rfl
  | leave hx => exact .of_consumer hx rfl rfl (Or.inl rfl)
  | @dispatch _ claimed choice x hx =>
    exact .of_consumer hx rfl rfl (Or.inl (x.dispatch_frame (s.cancelled x) claimed choice).2.2)
  | work hx => exact .of_consumer hx rfl rfl (Or.inl rfl)
  | _ => exact .of_eq rfl rfl

/-! ## No consumer is forgotten -/

/-- Every consumer is stopped, or registered, or in the hands of a call that stops it. -/
def Owned (s : Host) : Prop :=
  ∀ c x, s.all[c]? = some x → x.once = .finished ∨ c ∈ s.consumers.map Prod.snd ∨
    ∃ y ∈ s.callers, c ∈ y.todo

/-- A new consumer is registered. -/
theorem Moves.old_or_new (hm : Moves s a s') (hx : s'.all[c]? = some x) :
    (∃ z, s.all[c]? = some z ∧ Once.Moves z.once x.once) ∨ c ∈ s'.consumers.map Prod.snd := by
  rcases lt_or_ge c s.all.length with hlt | hge
  · left
    obtain ⟨x', hx', -, -, honce⟩ := hm.consumer (List.getElem?_eq_getElem hlt)
    obtain rfl := Option.some.inj (hx.symm.trans hx')
    exact ⟨s.all[c], List.getElem?_eq_getElem hlt, honce⟩
  · exact Or.inr (hm.subscribed hx hge).2

theorem Moves.registered_or_taken (hreg : Registered s) (hm : Moves s a s')
    (hc : c ∈ s.consumers.map Prod.snd) :
    c ∈ s'.consumers.map Prod.snd ∨ ∃ y ∈ s'.callers, c ∈ y.todo := by
  cases hm with
  | subscribe => exact Or.inl (List.mem_cons_of_mem _ hc)
  | @unsubscribe name d hd =>
    obtain ⟨p, hp, rfl⟩ := List.mem_map.mp hc
    by_cases hname : p.1 = name
    · have hsame : p = (name, d) :=
        List.inj_on_of_nodup_map hreg.names hp (mem_of_lookup hd) hname
      exact Or.inr ⟨_, List.mem_append_right _ (List.mem_singleton_self _), by rw [hsame]; simp⟩
    · exact Or.inl (List.mem_map_of_mem (List.mem_filter.mpr ⟨hp, by simpa using hname⟩))
  | shutdown hperm =>
    exact Or.inr ⟨_, List.mem_append_right _ (List.mem_singleton_self _), hperm.symm.subset hc⟩
  | _ => exact Or.inl hc

/-- A call keeps what it has to stop until it is stopped. -/
theorem Moves.todo_or_finished (hm : Moves s a s') {y : Caller} (hy : y ∈ s.callers)
    (hc : c ∈ y.todo) :
    (∃ y' ∈ s'.callers, c ∈ y'.todo) ∨ ∃ x, s'.all[c]? = some x ∧ x.once = .finished := by
  have hset : ∀ {t : ℕ} {z z' : Caller}, s.callers[t]? = some z → (c ∈ z.todo → c ∈ z'.todo) →
      ∃ y' ∈ s.callers.set t z', c ∈ y'.todo := by
    intro t z z' hz hsub
    rcases mem_set_or_eq hz z' hy with hmem | rfl
    · exact ⟨y, hmem, hc⟩
    · exact ⟨z', mem_set_self hz z', hsub hc⟩
  cases hm with
  | unsubscribe | stopConsumer | shutdown => exact Or.inl ⟨y, List.mem_append_left _ hy, hc⟩
  | cancel hz => exact Or.inl (hset hz id)
  | dismiss hz => exact Or.inl (hset hz id)
  | enter hz => exact Or.inl (hset hz id)
  | @skip _ d z rest x hz hphase htodo hx honce =>
    by_cases hcd : c = d
    · exact Or.inr ⟨x, hcd ▸ hx, honce⟩
    · refine Or.inl (hset hz (fun hmem => ?_))
      rw [htodo] at hmem
      exact (List.mem_cons.mp hmem).resolve_left hcd
  | @finish _ d z rest x hz hphase htodo hx =>
    by_cases hcd : c = d
    · refine Or.inr ⟨{ x with once := .finished }, ?_, rfl⟩
      exact (getElem?_setConsumer hx c).trans (if_pos hcd.symm)
    · refine Or.inl (hset hz (fun hmem => ?_))
      rw [htodo] at hmem
      exact (List.mem_cons.mp hmem).resolve_left hcd
  | wait hz => exact Or.inl (hset hz id)
  | park hz => exact Or.inl (hset hz id)
  | answer hz => exact Or.inl (hset hz id)
  | _ => exact Or.inl ⟨y, hy, hc⟩

theorem Owned.moves (h : Owned s) (hreg : Registered s) (hm : Moves s a s') : Owned s' := by
  intro c x hx
  rcases hm.old_or_new hx with ⟨z, hz, honce⟩ | hnew
  · rcases h c z hz with hfinished | hc | ⟨y, hy, hc⟩
    · exact Or.inl (hfinished ▸ honce).of_finished
    · exact Or.inr (hm.registered_or_taken hreg hc)
    · rcases hm.todo_or_finished hy hc with htodo | ⟨x', hx', hfinished⟩
      · exact Or.inr (Or.inr htodo)
      · rw [Option.some.inj (hx.symm.trans hx')]
        exact Or.inl hfinished
  · exact Or.inr (Or.inl hnew)

end Host

end RabbitmqLite.Engine.Lifecycle
