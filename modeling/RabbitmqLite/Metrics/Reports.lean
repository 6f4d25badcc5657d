import RabbitmqLite.Atomic.Script
import RabbitmqLite.Metrics.Collector

/-! # Reports in any order

Each series of the registry shows exactly what was done to it, because no other
series has its key and because a series is asked for before it is changed. So
no report is lost and none is counted elsewhere, whatever the order in which the
steps of different reports come.
-/

namespace RabbitmqLite.Metrics
open Collections Atomic

/-! ## One series at a time -/

/-- Names and labels are such that different series have different keys. -/
structure CleanSeries (name : String) (labels : Labels) : Prop where
  name : CleanName name
  labels : CleanLabels labels

/-- The series a step is about. -/
def Step.name : Step → String
  | .counter name _ _ | .inc name _ | .gauge name _ _ | .set name _ _ | .histogram name _ _ _
  | .observe name _ _ => name

def Step.labels : Step → Labels
  | .counter _ _ labels | .inc _ labels | .gauge _ _ labels | .set _ labels _
  | .histogram _ _ _ labels | .observe _ labels _ => labels

def Step.Clean (step : Step) : Prop := CleanSeries step.name step.labels

/-- A series is changed only by a goroutine that has asked for it. -/
def Step.Handed (before : List Step) : Step → Prop
  | .inc name labels => ∃ help, .counter name help labels ∈ before
  | .set name labels _ => ∃ help, .gauge name help labels ∈ before
  | .observe name labels _ => ∃ help bounds, .histogram name help bounds labels ∈ before
  | _ => True

def AllHanded (made : List Step) : Prop :=
  ∀ before step later, made = before ++ step :: later → step.Handed before

theorem Step.Handed.mono {before before' : List Step} {step : Step} (h : step.Handed before)
    (hsub : ∀ s ∈ before, s ∈ before') : step.Handed before' := by
  cases step with
  | inc => exact h.imp (fun _ ha => hsub _ ha)
  | set => exact h.imp (fun _ ha => hsub _ ha)
  | observe => exact h.imp (fun _ h => h.imp (fun _ ha => hsub _ ha))
  | _ => trivial

theorem AllHanded.snoc {made : List Step} {step : Step} (h : AllHanded made)
    (hstep : step.Handed made) : AllHanded (made ++ [step]) := by
  intro before next later hsplit
  rcases List.eq_nil_or_concat later with rfl | ⟨rest, last, rfl⟩
  · obtain ⟨rfl, hlast⟩ := List.append_inj' hsplit rfl
    exact List.singleton_inj.mp hlast ▸ hstep
  · rw [List.concat_eq_append, ← List.cons_append, ← List.append_assoc] at hsplit
    exact h before next rest (List.append_inj' hsplit rfl).1

theorem AllHanded.append {made more : List Step} (h : AllHanded made) (hmore : AllHanded more) :
    AllHanded (made ++ more) := by
  induction more using List.reverseRecOn with
  | nil => simpa using h
  | append_singleton more step ih =>
    rw [← List.append_assoc]
    have hinit : AllHanded more := by
      rintro before next later rfl
      exact hmore before next (later ++ [step]) (by simp)
    exact (ih hinit).snoc ((hmore more step [] rfl).mono (fun s hs => List.mem_append_right _ hs))

theorem allHanded_nil : AllHanded [] := fun before step later h => by cases before <;> cases h

/-! ## The three maps of the registry -/

/-- One map of the registry: the value of a series that a step asks for, and what a step has for
the series it changes. No step does both, and a series is changed only if it was asked for. -/
structure Family (β γ : Type) where
  asks : Step → Option β
  changes : Step → Option γ
  apply : γ → β → β
  apart : ∀ {step}, (changes step).isSome → asks step = none
  handed : ∀ {before step}, (changes step).isSome → step.Handed before →
    ∃ ask ∈ before, ask.name = step.name ∧ ask.labels = step.labels ∧ (asks ask).isSome

namespace Family

def counters : Family Counter ℤ where
  asks
    | .counter name _ labels => some ⟨name, labels, 0⟩
    | _ => none
  changes
    | .inc _ _ => some 1
    | _ => none
  apply := Counter.add
  apart := by
    intro step h
    cases step <;> trivial
  handed := by
    intro before step h hhanded
    cases step <;> try cases h
    obtain ⟨help, hask⟩ := hhanded
    exact ⟨_, hask, rfl, rfl, rfl⟩

def gauges : Family Gauge ℤ where
  asks
    | .gauge name _ labels => some ⟨name, labels, 0⟩
    | _ => none
  changes
    | .set _ _ value => some value
    | _ => none
  apply := Gauge.set
  apart := by
    intro step h
    cases step <;> trivial
  handed := by
    intro before step h hhanded
    cases step <;> try cases h
    obtain ⟨help, hask⟩ := hhanded
    exact ⟨_, hask, rfl, rfl, rfl⟩

def histograms : Family Histogram ℚ where
  asks
    | .histogram name _ bounds labels => some (newHistogram name bounds labels)
    | _ => none
  changes
    | .observe _ _ value => some value
    | _ => none
  apply := Histogram.observe
  apart := by
    intro step h
    cases step <;> trivial
  handed := by
    intro before step h hhanded
    cases step <;> try cases h
    obtain ⟨help, bounds, hask⟩ := hhanded
    exact ⟨_, hask, rfl, rfl, rfl⟩

variable {β γ : Type} (family : Family β γ) (isPrint : Char → Bool)

/-- What a step does to the map. -/
def touch (step : Step) : Option (Touch String β) :=
  let key := seriesKey isPrint step.name step.labels
  match family.changes step with
  | some n => some (.change key (family.apply n))
  | none => (family.asks step).map (.ask key)

/-- What a step has for a series. -/
def noted (name : String) (labels : Labels) (step : Step) : Option γ :=
  if step.name = name ∧ step.labels = labels then family.changes step else none

variable {family isPrint}

theorem touch_eq_change {step : Step} {key : String} {f : β → β}
    (h : family.touch isPrint step = some (.change key f)) :
    key = seriesKey isPrint step.name step.labels ∧ (family.changes step).isSome := by
  unfold touch at h
  cases hchange : family.changes step with
  | some n =>
    rw [hchange] at h
    cases h
    exact ⟨rfl, rfl⟩
  | none =>
    rw [hchange] at h
    obtain ⟨fresh, -, heq⟩ := Option.map_eq_some_iff.mp h
    cases heq

theorem touch_eq_ask {step : Step} {key : String} {fresh : β} :
    family.touch isPrint step = some (.ask key fresh) ↔
      family.asks step = some fresh ∧ key = seriesKey isPrint step.name step.labels := by
  unfold touch
  cases hchange : family.changes step with
  | some n =>
    have hask : family.asks step = none := family.apart (by rw [hchange]; rfl)
    simp [hask]
  | none => simp [eq_comm]

variable {made : List Step}

/-- Touches are asked for as the steps are. -/
theorem asked (h : AllHanded made) : Asked (made.filterMap (family.touch isPrint)) := by
  intro before key f later hsplit
  obtain ⟨first, rest, rfl, rfl, hrest⟩ := List.filterMap_eq_append_iff.mp hsplit
  obtain ⟨skipped, step, last, rfl, hskipped, hstep, -⟩ := List.filterMap_eq_cons_iff.mp hrest
  obtain ⟨rfl, hchange⟩ := touch_eq_change hstep
  obtain ⟨ask, hask, hname, hlabels, hsome⟩ :=
    family.handed hchange (h (first ++ skipped) step last (by simp))
  obtain ⟨fresh, hfresh⟩ := Option.isSome_iff_exists.mp hsome
  have htouch : family.touch isPrint ask =
      some (.ask (seriesKey isPrint step.name step.labels) fresh) :=
    touch_eq_ask.mpr ⟨hfresh, by rw [hname, hlabels]⟩
  refine ⟨fresh, List.mem_filterMap.mpr ⟨ask, ?_, htouch⟩⟩
  rcases List.mem_append.mp hask with hask | hask
  · exact hask
  · cases (hskipped ask hask).symm.trans htouch

variable {name : String} {labels : Labels} (hs : CleanSeries name labels)
  (hm : ∀ step ∈ made, step.Clean)
include hs hm

/-- The changes under a key are those of the series with this key. -/
theorem changes_touched :
    (made.filterMap (family.touch isPrint)).filterMap
        (Touch.change? (seriesKey isPrint name labels)) =
      (made.filterMap (family.noted name labels)).map family.apply := by
  rw [List.filterMap_filterMap, List.map_filterMap]
  refine List.filterMap_congr (fun step hstep => ?_)
  have hkey := seriesKey_inj isPrint (hm step hstep).name hs.name (hm step hstep).labels hs.labels
  unfold touch noted
  cases family.changes step with
  | none => cases family.asks step <;> simp [Touch.change?]
  | some n =>
    simp only [Option.bind_some, Touch.change?, hkey]
    split_ifs <;> rfl

/-- What is found of a series was made by a step that asked for it, and changed by all that was
noted for it; if nobody asked for it, nothing was. -/
theorem lookup_touched (family : Family β γ) (isPrint : Char → Bool) (hh : AllHanded made) :
    match (touched (made.filterMap (family.touch isPrint))).lookup
      (seriesKey isPrint name labels) with
    | some v => ∃ step fresh, family.asks step = some fresh ∧
        v = (made.filterMap (family.noted name labels)).foldl (fun v n => family.apply n v) fresh
    | none => made.filterMap (family.noted name labels) = [] := by
  have ha : Asked (made.filterMap (family.touch isPrint)) := asked hh
  have hchanges : (made.filterMap (family.touch isPrint)).filterMap
      (Touch.change? (seriesKey isPrint name labels)) = _ := changes_touched hs hm
  rw [Collections.lookup_touched ha, hchanges]
  cases hfind : (made.filterMap (family.touch isPrint)).findSome?
      (Touch.fresh (seriesKey isPrint name labels)) with
  | none =>
    rw [ha.change_eq_nil hfind] at hchanges
    exact List.map_eq_nil_iff.mp hchanges.symm
  | some fresh =>
    obtain ⟨t, ht, hfresh⟩ := List.exists_of_findSome?_eq_some hfind
    obtain ⟨step, -, hstep⟩ := List.mem_filterMap.mp ht
    cases t with
    | change => cases hfresh
    | ask key v =>
      simp only [Touch.fresh] at hfresh
      split_ifs at hfresh
      obtain rfl := Option.some.inj hfresh
      exact ⟨step, v, (touch_eq_ask.mp hstep).1, List.foldl_map⟩

end Family

section Series
variable (isPrint : Char → Bool)

/-- The registry after some steps. -/
def registryAfter (made : List Step) : Registry :=
  made.foldl (fun r step => r.step isPrint step) newRegistry

theorem registryAfter_maps (made : List Step) :
    (registryAfter isPrint made).counters =
        touched (made.filterMap (Family.counters.touch isPrint)) ∧
      (registryAfter isPrint made).gauges =
        touched (made.filterMap (Family.gauges.touch isPrint)) ∧
      (registryAfter isPrint made).histograms =
        touched (made.filterMap (Family.histograms.touch isPrint)) := by
  induction made using List.reverseRecOn with
  | nil => exact ⟨rfl, rfl, rfl⟩
  | append_singleton made step ih =>
    obtain ⟨hc, hg, hh⟩ := ih
    simp only [registryAfter, List.foldl_append, List.filterMap_append, touched] at *
    rw [← hc, ← hg, ← hh]
    cases step <;> exact ⟨rfl, rfl, rfl⟩

variable {isPrint}

/-- The registry shows of each series what was done to it, and nothing else. -/
structure ShowsAll (isPrint : Char → Bool) (r : Registry) (made : List Step) : Prop where
  counters : ∀ name labels, CleanSeries name labels →
    r.counterValue isPrint name labels = made.count (.inc name labels)
  gauges : ∀ name labels, CleanSeries name labels →
    r.gaugeValue isPrint name labels = (made.filterMap (Family.gauges.noted name labels)).getLastD 0
  histograms : ∀ name labels h, CleanSeries name labels →
    r.histograms.lookup (seriesKey isPrint name labels) = some h →
      Observed h (made.filterMap (Family.histograms.noted name labels))
  missing : ∀ name labels, CleanSeries name labels →
    r.histograms.lookup (seriesKey isPrint name labels) = none →
      made.filterMap (Family.histograms.noted name labels) = []

theorem sum_noted (name : String) (labels : Labels) (made : List Step) :
    (made.filterMap (Family.counters.noted name labels)).sum = made.count (.inc name labels) := by
  induction made with
  | nil => rfl
  | cons step made ih =>
    rw [List.count_cons]
    cases step with
    | inc n l =>
      have hnoted : Family.counters.noted name labels (.inc n l) =
          if n = name ∧ l = labels then some 1 else none := rfl
      rw [List.filterMap_cons, hnoted]
      by_cases h : n = name ∧ l = labels
      · simp [h, ih, add_comm]
      · have hne : ¬ (Step.inc n l = Step.inc name labels) := by simpa using h
        simp [h, ih, hne]
    | _ =>
      rw [List.filterMap_cons_none (by exact ite_self none), ih]
      simp

theorem foldl_add (values : List ℤ) (c : Counter) :
    (values.foldl (fun c n => Counter.add n c) c).value = c.value + values.sum := by
  induction values generalizing c with
  | nil => simp
  | cons n values ih =>
    rw [List.foldl_cons, ih, List.sum_cons, Counter.add]
    ring

theorem foldl_set (values : List ℤ) (g : Gauge) :
    (values.foldl (fun g n => Gauge.set n g) g).value = values.getLastD g.value := by
  induction values generalizing g with
  | nil => rfl
  | cons n values ih =>
    rw [List.foldl_cons, ih, List.getLastD_cons]
    rfl

theorem showsAll {made : List Step} (hh : AllHanded made) (hm : ∀ step ∈ made, step.Clean) :
    ShowsAll isPrint (registryAfter isPrint made) made := by
  obtain ⟨hcounters, hgauges, hhistograms⟩ := registryAfter_maps isPrint made
  refine ⟨fun name labels hs => ?_, fun name labels hs => ?_, fun name labels h hs hl => ?_,
    fun name labels hs hl => ?_⟩
  · rw [Registry.counterValue, hcounters, ← sum_noted]
    have hfound := Family.counters.lookup_touched hs hm isPrint hh
    cases hl : (touched (made.filterMap (Family.counters.touch isPrint))).lookup
        (seriesKey isPrint name labels) with
    | none =>
      rw [hl] at hfound
      rw [hfound]
      rfl
    | some c =>
      rw [hl] at hfound
      obtain ⟨step, fresh, hask, rfl⟩ := hfound
      cases step <;> cases hask
      exact (foldl_add _ _).trans (zero_add _)
  · rw [Registry.gaugeValue, hgauges]
    have hfound := Family.gauges.lookup_touched hs hm isPrint hh
    cases hl : (touched (made.filterMap (Family.gauges.touch isPrint))).lookup
        (seriesKey isPrint name labels) with
    | none =>
      rw [hl] at hfound
      rw [hfound]
      rfl
    | some g =>
      rw [hl] at hfound
      obtain ⟨step, fresh, hask, rfl⟩ := hfound
      cases step <;> cases hask
      exact foldl_set _ _
  · have hfound := Family.histograms.lookup_touched hs hm isPrint hh
    rw [← hhistograms, hl] at hfound
    obtain ⟨step, fresh, hask, rfl⟩ := hfound
    cases step <;> cases hask
    exact observed_foldl (newHistogram_observed _ _ _) _
  · have hfound := Family.histograms.lookup_touched hs hm isPrint hh
    rwa [← hhistograms, hl] at hfound

end Series

/-! ## Reports in any order -/

/-- The counter a report raises. -/
def Report.raises : Report → Option (String × Labels)
  | .messagePublished queue _ => some (metricPublished, ofQueue queue)
  | .messageDelivered queue => some (metricDelivered, ofQueue queue)
  | .messageAcknowledged queue _ => some (metricAcknowledged, ofQueue queue)
  | .messageRetried queue => some (metricRetried, ofQueue queue)
  | .messageDeadLettered queue kind => some (metricDeadLettered, ofKind queue kind)
  | .messageRejected queue => some (metricRejected, ofQueue queue)
  | .queueDepth _ _ _ _ => none

theorem cleanLabels_ofQueue (queue : String) : CleanLabels (ofQueue queue) := by
  intro name hname
  obtain rfl : name = "queue" := by simpa [ofQueue] using hname
  decide

theorem cleanLabels_ofKind (queue kind : String) : CleanLabels (ofKind queue kind) := by
  intro name hname
  rcases Finmap.mem_insert.mp hname with rfl | hname
  · decide
  · exact cleanLabels_ofQueue queue name hname

theorem cleanLabels_empty : CleanLabels ∅ := fun _ h => absurd h Finmap.notMem_empty

theorem clean_pair {ask change : Step} (ha : ask.Clean) (hc : change.Clean) :
    ∀ step ∈ [ask, change], step.Clean := by
  simp [ha, hc]

theorem clean_countUp {name : String} {labels : Labels} (hs : CleanSeries name labels)
    (help : String) : ∀ step ∈ countUp name help labels, step.Clean := clean_pair hs hs

theorem clean_setGauge {name : String} {labels : Labels} (hs : CleanSeries name labels)
    (help : String) (value : ℤ) : ∀ step ∈ setGauge name help labels value, step.Clean :=
  clean_pair hs hs

theorem clean_observeDuration {name : String} {labels : Labels} (hs : CleanSeries name labels)
    (help : String) (elapsed : Duration) :
    ∀ step ∈ observeDuration name help labels elapsed, step.Clean := clean_pair hs hs

theorem Report.clean (report : Report) : ∀ step ∈ report.steps, step.Clean := by
  have hqueue : ∀ name queue, CleanName name → CleanSeries name (ofQueue queue) :=
    fun name queue hn => ⟨hn, cleanLabels_ofQueue queue⟩
  cases report with
  | messagePublished queue latency =>
    exact List.forall_mem_append.mpr ⟨clean_countUp (hqueue _ queue (by decide)) _,
      clean_observeDuration ⟨by decide, cleanLabels_empty⟩ _ latency⟩
  | messageDelivered queue => exact clean_countUp (hqueue _ queue (by decide)) _
  | messageAcknowledged queue latency =>
    exact List.forall_mem_append.mpr ⟨clean_countUp (hqueue _ queue (by decide)) _,
      clean_observeDuration (hqueue _ queue (by decide)) _ latency⟩
  | messageRetried queue => exact clean_countUp (hqueue _ queue (by decide)) _
  | messageDeadLettered queue kind =>
    exact clean_countUp ⟨by decide, cleanLabels_ofKind queue kind⟩ _
  | messageRejected queue => exact clean_countUp (hqueue _ queue (by decide)) _
  | queueDepth queue ready inFlight scheduled =>
    exact List.forall_mem_append.mpr ⟨List.forall_mem_append.mpr
      ⟨clean_setGauge (hqueue _ queue (by decide)) _ ready,
        clean_setGauge (hqueue _ queue (by decide)) _ inFlight⟩,
      clean_setGauge (hqueue _ queue (by decide)) _ scheduled⟩

theorem allHanded_pair {ask step : Step} (ha : ask.Handed []) (hs : step.Handed [ask]) :
    AllHanded [ask, step] :=
  (allHanded_nil.snoc ha).snoc hs

theorem allHanded_countUp (name help : String) (labels : Labels) :
    AllHanded (countUp name help labels) :=
  allHanded_pair trivial ⟨help, List.mem_singleton_self _⟩

theorem allHanded_setGauge (name help : String) (labels : Labels) (value : ℤ) :
    AllHanded (setGauge name help labels value) :=
  allHanded_pair trivial ⟨help, List.mem_singleton_self _⟩

theorem allHanded_observeDuration (name help : String) (labels : Labels) (elapsed : Duration) :
    AllHanded (observeDuration name help labels elapsed) :=
  allHanded_pair trivial ⟨help, defaultBuckets, List.mem_singleton_self _⟩

theorem Report.allHanded (report : Report) : AllHanded report.steps := by
  cases report with
  | messagePublished | messageAcknowledged =>
    exact (allHanded_countUp _ _ _).append (allHanded_observeDuration _ _ _ _)
  | messageDelivered | messageRetried | messageDeadLettered | messageRejected =>
    exact allHanded_countUp _ _ _
  | queueDepth =>
    exact ((allHanded_setGauge _ _ _ _).append (allHanded_setGauge _ _ _ _)).append
      (allHanded_setGauge _ _ _ _)

theorem Report.count_inc (report : Report) (name : String) (labels : Labels) :
    report.steps.count (.inc name labels) =
      if report.raises = some (name, labels) then 1 else 0 := by
  cases report <;>
    simp [Report.steps, Report.raises, countUp, setGauge, observeDuration, List.count_cons]

theorem Report.raises_clean {report : Report} {name : String} {labels : Labels}
    (h : report.raises = some (name, labels)) : CleanSeries name labels := by
  have hinc : Step.inc name labels ∈ report.steps := by
    rw [← List.count_pos_iff, report.count_inc, if_pos h]
    exact Nat.one_pos
  exact report.clean _ hinc

theorem count_flatMap_steps (reports : List Report) (name : String) (labels : Labels) :
    (reports.flatMap Report.steps).count (.inc name labels) =
      reports.countP (fun r => r.raises = some (name, labels)) := by
  induction reports with
  | nil => rfl
  | cons report reports ih =>
    rw [List.flatMap_cons, List.count_append, ih, report.count_inc, List.countP_cons, add_comm]
    simp

/-- What the registry shows after the steps made so far: each counter has been raised once for
each report on it, but for those still on their way, and every series shows what was done to it. -/
structure Reported (isPrint : Char → Bool) (x : Scripts Registry Report Step) : Prop where
  counted : ∀ (report : Report) (name : String) (labels : Labels),
    report.raises = some (name, labels) →
      x.state.counterValue isPrint name labels + x.left.flatten.count (.inc name labels) =
        x.started.countP (fun r => r.raises = some (name, labels))
  shown : ShowsAll isPrint x.state x.made

section Runs
variable {isPrint : Char → Bool} {x : Scripts Registry Report Step}

theorem made_handed (h : x.Sound (Registry.step isPrint) Report.steps newRegistry) :
    AllHanded x.made := by
  intro before step later hsplit
  obtain ⟨report, -, past, rest, hsteps, hpast⟩ := h.inTurn before step later hsplit
  exact (report.allHanded past step rest hsteps).mono hpast

theorem exists_report_of_made (h : x.Sound (Registry.step isPrint) Report.steps newRegistry)
    {step : Step} (hstep : step ∈ x.made) : ∃ report ∈ x.started, step ∈ report.steps :=
  List.mem_flatMap.mp (h.perm.subset (List.mem_append_left _ hstep))

theorem shown_of_sound (h : x.Sound (Registry.step isPrint) Report.steps newRegistry) :
    ShowsAll isPrint x.state x.made := by
  rw [h.state]
  refine showsAll (made_handed h) (fun step hstep => ?_)
  obtain ⟨report, -, hmem⟩ := exists_report_of_made h hstep
  exact report.clean step hmem

theorem count_made (h : x.Sound (Registry.step isPrint) Report.steps newRegistry)
    (name : String) (labels : Labels) :
    x.made.count (.inc name labels) + x.left.flatten.count (.inc name labels) =
      x.started.countP (fun r => r.raises = some (name, labels)) := by
  have hcount := h.perm.count_eq (.inc name labels)
  rwa [List.count_append, count_flatMap_steps] at hcount

end Runs

/-- Reports of any number of goroutines, step by step in any order, are all counted. -/
theorem reports_counted (isPrint : Char → Bool) (turns : List (Turn Report)) :
    Reported isPrint (Scripts.run (Registry.step isPrint) Report.steps newRegistry turns) := by
  have hsound : (Scripts.run (Registry.step isPrint) Report.steps newRegistry turns).Sound
      (Registry.step isPrint) Report.steps newRegistry := Scripts.run_sound newRegistry turns
  refine ⟨fun report name labels hraises => ?_, shown_of_sound hsound⟩
  have hcount := count_made hsound name labels
  rw [(shown_of_sound hsound).counters name labels (Report.raises_clean hraises)]
  exact_mod_cast hcount

end RabbitmqLite.Metrics
