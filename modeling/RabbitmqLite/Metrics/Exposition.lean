import RabbitmqLite.Metrics.Reports

/-! # The exposition of the registry

`Write` goes through the names of the registry in order and writes under each
one the series of a single kind, found by the text their keys begin with. A
series is left out if its name is also the name of a series of another kind, and
would be written twice if its key began with two names. Neither happens to the
series of the collector. Every line is written with a line break at its end.
-/

namespace RabbitmqLite.Metrics
open Collections Atomic Text

/-! ## Lines -/

inductive SeriesKind where
  | counter
  | gauge
  | histogram
  deriving DecidableEq

/-- `strings.HasPrefix` with the name and an opening brace. -/
def startsWithName (name key : String) : Bool :=
  (name.toList ++ ['\x7b']).isPrefixOf key.toList

def hasSeries {β : Type} (series : Map String β) (name : String) : Bool :=
  (sortedKeys series).any (startsWithName name)

def sortedKeysOf {β : Type} (series : Map String β) (name : String) : List String :=
  (sortedKeys series).filter (startsWithName name)

def writeHeader (name help kind : String) : List String :=
  (if help ≠ "" then ["# HELP " ++ name ++ " " ++ help] else []) ++
    ["# TYPE " ++ name ++ " " ++ kind]

section Write
variable (isPrint : Char → Bool) (formatFloat formatSum : ℚ → String)

def sampleLine (name : String) (labels : Labels) (value : String) : String :=
  renderSeries isPrint name labels ++ " " ++ value

def Counter.lines (c : Counter) : List String :=
  [sampleLine isPrint c.name c.labels (toString c.value)]

/-- The lines of `writeHistogram`. -/
def Histogram.lines (h : Histogram) : List String :=
  List.zipWith (fun bound n => sampleLine isPrint (h.name ++ "_bucket")
      (h.labels.insert "le" (formatFloat bound)) (toString n)) h.bounds h.buckets ++
    [sampleLine isPrint (h.name ++ "_bucket") (h.labels.insert "le" "+Inf") (toString h.count),
      sampleLine isPrint (h.name ++ "_sum") h.labels (formatSum h.sum),
      sampleLine isPrint (h.name ++ "_count") h.labels (toString h.count)]

/-- The lines of the series with the given keys. -/
def seriesLines {β : Type} (series : Map String β) (lines : β → List String)
    (keys : List String) : List String :=
  (keys.filterMap series.lookup).flatMap lines

namespace Registry

def names (r : Registry) : List String := sortedKeys r.help

/-- The kind of the series that are written under a name. -/
def writtenKind (r : Registry) (name : String) : Option SeriesKind :=
  if hasSeries r.counters name then some .counter
  else if hasSeries r.gauges name then some .gauge
  else if hasSeries r.histograms name then some .histogram
  else none

/-- What is written under a name. -/
def nameLines (r : Registry) (name : String) : List String :=
  let help := (r.help.lookup name).getD ""
  match r.writtenKind name with
  | some .counter =>
    writeHeader name help "counter" ++
      seriesLines r.counters (Counter.lines isPrint) (sortedKeysOf r.counters name)
  | some .gauge =>
    writeHeader name help "gauge" ++
      seriesLines r.gauges (Counter.lines isPrint) (sortedKeysOf r.gauges name)
  | some .histogram =>
    writeHeader name help "histogram" ++
      seriesLines r.histograms (Histogram.lines isPrint formatFloat formatSum)
        (sortedKeysOf r.histograms name)
  | none => []

/-- The lines of `Write`. -/
def lines (r : Registry) : List String :=
  r.names.flatMap (fun name => r.nameLines isPrint formatFloat formatSum name ++ [""])

/-- A line for each value of each series there is. -/
def everySample (r : Registry) : List String :=
  seriesLines r.counters (Counter.lines isPrint) (sortedKeys r.counters) ++
    seriesLines r.gauges (Counter.lines isPrint) (sortedKeys r.gauges) ++
    seriesLines r.histograms (Histogram.lines isPrint formatFloat formatSum)
      (sortedKeys r.histograms)

end Registry
end Write

/-- Neither a comment nor a blank line. -/
def isSample (line : String) : Bool := line ≠ "" ∧ line.toList.head? ≠ some '#'

/-! ## Where a series stands -/

/-- A name that shows what kind of series it is for. -/
structure Named (kind : String → SeriesKind) (k : SeriesKind) (name : String) (labels : Labels) :
    Prop where
  kind : kind name = k
  visible : isSample name
  clean : CleanSeries name labels

def Counter.series (c : Counter) : String × Labels := (c.name, c.labels)

def Histogram.series (h : Histogram) : String × Labels := (h.name, h.labels)

section Filing
variable (isPrint : Char → Bool) (kind : String → SeriesKind)

/-- Every series of a map is under its own key, and its name is among the names. -/
def Holds {β : Type} (k : SeriesKind) (series : β → String × Labels) (help : Map String String)
    (m : Map String β) : Prop :=
  ∀ key v, m.lookup key = some v →
    key = seriesKey isPrint (series v).1 (series v).2 ∧ (series v).1 ∈ help ∧
      Named kind k (series v).1 (series v).2

structure Filed (r : Registry) : Prop where
  counters : Holds isPrint kind .counter Counter.series r.help r.counters
  gauges : Holds isPrint kind .gauge Counter.series r.help r.gauges
  histograms : Holds isPrint kind .histogram Histogram.series r.help r.histograms
  names : ∀ name ∈ r.help, CleanName name

/-- The kind of the name is the kind of the series that is asked for. -/
def Step.Fits : Step → Prop
  | .counter name _ labels => Named kind .counter name labels
  | .gauge name _ labels => Named kind .gauge name labels
  | .histogram name _ _ labels => Named kind .histogram name labels
  | _ => True

end Filing

section Holds
variable {isPrint : Char → Bool} {kind : String → SeriesKind} {β : Type} {k : SeriesKind}
  {series : β → String × Labels} {help : Map String String} {m : Map String β}

theorem holds_empty : Holds isPrint kind k series help ∅ := by
  intro key v h
  rw [Finmap.lookup_empty] at h
  cases h

theorem Holds.insert_help (h : Holds isPrint kind k series help m) (name text : String) :
    Holds isPrint kind k series (help.insert name text) m := by
  intro key v hv
  obtain ⟨hkey, hmem, hnamed⟩ := h key v hv
  exact ⟨hkey, Finmap.mem_insert.mpr (.inr hmem), hnamed⟩

/-- A series that is asked for stands under its name from then on. -/
theorem Holds.ask (h : Holds isPrint kind k series help m) {name : String} {labels : Labels}
    (hn : Named kind k name labels) {fresh : β} (hfresh : series fresh = (name, labels))
    (text : String) :
    Holds isPrint kind k series (help.insert name text)
      (askFor m (seriesKey isPrint name labels) fresh) := by
  intro key v hv
  rw [lookup_askFor] at hv
  split_ifs at hv with hkey
  · cases hold : m.lookup (seriesKey isPrint name labels) with
    | none =>
      rw [hold] at hv
      obtain rfl := Option.some.inj hv
      rw [Option.getD_none, hfresh]
      exact ⟨hkey, Finmap.mem_insert.mpr (.inl rfl), hn⟩
    | some old =>
      rw [hold] at hv
      obtain rfl := Option.some.inj hv
      exact h.insert_help name text key old (hkey ▸ hold)
  · exact h.insert_help name text key v hv

theorem Holds.change (h : Holds isPrint kind k series help m) (f : β → β)
    (hf : ∀ v, series (f v) = series v) (key : String) :
    Holds isPrint kind k series help (changeAt m key f) := by
  intro key' v hv
  rw [lookup_changeAt] at hv
  split_ifs at hv with hkey
  · obtain ⟨old, hold, rfl⟩ := Option.map_eq_some_iff.mp hv
    rw [hf]
    exact h key' old (hkey ▸ hold)
  · exact h key' v hv

end Holds

section Filing
variable {isPrint : Char → Bool} {kind : String → SeriesKind}

theorem CleanName.insert_help {help : Map String String}
    (h : ∀ name ∈ help, CleanName name) {name : String} (hn : CleanName name) (text : String) :
    ∀ n ∈ help.insert name text, CleanName n := by
  intro n hmem
  rcases Finmap.mem_insert.mp hmem with rfl | hmem
  · exact hn
  · exact h n hmem

theorem Filed.step {r : Registry} (h : Filed isPrint kind r) {step : Step}
    (hfit : step.Fits kind) : Filed isPrint kind (r.step isPrint step) := by
  cases step with
  | counter name help labels =>
    have hn : Named kind .counter name labels := hfit
    exact ⟨h.counters.ask hn rfl help, h.gauges.insert_help name help,
      h.histograms.insert_help name help, CleanName.insert_help h.names hn.clean.name help⟩
  | gauge name help labels =>
    have hn : Named kind .gauge name labels := hfit
    exact ⟨h.counters.insert_help name help, h.gauges.ask hn rfl help,
      h.histograms.insert_help name help, CleanName.insert_help h.names hn.clean.name help⟩
  | histogram name help bounds labels =>
    have hn : Named kind .histogram name labels := hfit
    exact ⟨h.counters.insert_help name help, h.gauges.insert_help name help,
      h.histograms.ask hn rfl help, CleanName.insert_help h.names hn.clean.name help⟩
  | inc name labels =>
    exact { h with counters := h.counters.change (Counter.add 1) (fun _ => rfl) _ }
  | set name labels value =>
    exact { h with gauges := h.gauges.change (Gauge.set value) (fun _ => rfl) _ }
  | observe name labels value =>
    exact { h with histograms := h.histograms.change (Histogram.observe value) (fun _ => rfl) _ }

theorem filed_after {made : List Step} (hm : ∀ step ∈ made, step.Fits kind) :
    Filed isPrint kind (registryAfter isPrint made) := by
  induction made using List.reverseRecOn with
  | nil => exact ⟨holds_empty, holds_empty, holds_empty, fun _ h => absurd h Finmap.notMem_empty⟩
  | append_singleton made step ih =>
    rw [registryAfter, List.foldl_append]
    rw [List.forall_mem_append] at hm
    exact (ih hm.1).step (hm.2 step (List.mem_singleton_self _))

end Filing

/-! ## Names and keys -/

theorem startsWithName_seriesKey {isPrint : Char → Bool} {name name' : String}
    (hn : CleanName name) (hn' : CleanName name') (labels : Labels) :
    startsWithName name (seriesKey isPrint name' labels) = true ↔ name = name' := by
  rw [startsWithName, List.isPrefixOf_iff_prefix, toList_seriesKey]
  constructor
  · rintro ⟨rest, hrest⟩
    rw [List.append_assoc, List.singleton_append] at hrest
    exact String.toList_injective (append_cons_inj hn hn' hrest).1
  · rintro rfl
    exact ⟨(renderLabels isPrint labels).toList ++ ['\x7d'], by simp⟩

theorem sortedKeysOf_eq_nil {β : Type} {m : Map String β} {name : String}
    (h : hasSeries m name = false) : sortedKeysOf m name = [] := by
  rw [hasSeries, List.any_eq_false] at h
  exact List.filter_eq_nil_iff.mpr h

section Keys
variable {isPrint : Char → Bool} {kind : String → SeriesKind} {β : Type} {k : SeriesKind}
  {series : β → String × Labels} {help : Map String String} {m : Map String β}

/-- The series under a name are of the kind of the name. -/
theorem Holds.hasSeries_eq_false (h : Holds isPrint kind k series help m) {name : String}
    (hn : CleanName name) (hk : kind name ≠ k) : hasSeries m name = false := by
  rw [hasSeries, List.any_eq_false]
  intro key hkey hstarts
  obtain ⟨v, hv⟩ := mem_iff_lookup.mp (mem_sortedKeys.mp hkey)
  obtain ⟨rfl, -, hnamed⟩ := h key v hv
  obtain rfl := (startsWithName_seriesKey hn hnamed.clean.name _).mp hstarts
  exact hk hnamed.kind

theorem seriesLines_flatMap (lines : β → List String) (names : List String)
    (keys : String → List String) :
    names.flatMap (fun name => seriesLines m lines (keys name)) =
      seriesLines m lines (names.flatMap keys) := by
  simp only [seriesLines, List.filterMap_flatMap, List.flatMap_assoc]

/-- Name by name, every series comes once. -/
theorem Holds.perm (h : Holds isPrint kind k series help m)
    (hclean : ∀ name ∈ help, CleanName name) (lines : β → List String) :
    ((sortedKeys help).flatMap (fun name => seriesLines m lines (sortedKeysOf m name))).Perm
      (seriesLines m lines (sortedKeys m)) := by
  rw [seriesLines_flatMap]
  refine List.Perm.flatMap_right _ (List.Perm.filterMap _ ?_)
  refine perm_flatMap_filter (sortedKeys_nodup help) (fun key hkey => ?_)
  obtain ⟨v, hv⟩ := mem_iff_lookup.mp (mem_sortedKeys.mp hkey)
  obtain ⟨rfl, hmem, hnamed⟩ := h key v hv
  refine ⟨(series v).1, mem_sortedKeys.mpr hmem, fun name hname => ?_⟩
  exact startsWithName_seriesKey (hclean name (mem_sortedKeys.mp hname)) hnamed.clean.name _

end Keys

/-! ## Samples -/

section Samples
variable {isPrint : Char → Bool} {formatFloat formatSum : ℚ → String}

theorem isSample_append {s : String} (h : isSample s) (t : String) : isSample (s ++ t) := by
  simp only [isSample, decide_eq_true_eq] at h ⊢
  obtain ⟨hne, hhead⟩ := h
  have hlist : s.toList ≠ [] := by simpa using hne
  refine ⟨by simp [hne], ?_⟩
  rwa [String.toList_append, List.head?_append_of_ne_nil _ hlist]

theorem isSample_sampleLine {name : String} (h : isSample name) (labels : Labels)
    (value : String) : isSample (sampleLine isPrint name labels value) := by
  rw [sampleLine, renderSeries]
  split_ifs
  · exact isSample_append (isSample_append h _) _
  · exact isSample_append (isSample_append (isSample_append (isSample_append
      (isSample_append h _) _) _) _) _

theorem Counter.isSample_lines {c : Counter} (h : isSample c.name) :
    ∀ line ∈ c.lines isPrint, isSample line := by
  intro line hline
  rw [List.mem_singleton.mp hline]
  exact isSample_sampleLine h _ _

theorem Histogram.isSample_lines {h : Histogram} (hs : isSample h.name) :
    ∀ line ∈ h.lines isPrint formatFloat formatSum, isSample line := by
  have hline : ∀ ending labels value,
      isSample (sampleLine isPrint (h.name ++ ending) labels value) :=
    fun ending labels value => isSample_sampleLine (isSample_append hs ending) labels value
  rw [Histogram.lines, List.forall_mem_append]
  refine ⟨fun line hmem => ?_, ?_⟩
  · obtain ⟨i, hi, rfl⟩ := List.getElem_of_mem hmem
    rw [List.getElem_zipWith]
    exact hline _ _ _
  · simp only [List.forall_mem_cons]
    exact ⟨hline _ _ _, hline _ _ _, hline _ _ _, by simp⟩

theorem filter_writeHeader (name help kind : String) :
    (writeHeader name help kind).filter isSample = [] := by
  rw [List.filter_eq_nil_iff, writeHeader]
  intro line hline
  have hhash : line.toList.head? = some '#' := by
    rcases List.mem_append.mp hline with hline | hline
    · split_ifs at hline
      · rw [List.mem_singleton.mp hline]
        simp
      · cases hline
    · rw [List.mem_singleton.mp hline]
      simp
  simp [isSample, hhash]

theorem Holds.filter_seriesLines {kind : String → SeriesKind} {β : Type} {k : SeriesKind}
    {series : β → String × Labels} {help : Map String String} {m : Map String β}
    (h : Holds isPrint kind k series help m) (lines : β → List String)
    (hlines : ∀ v, isSample (series v).1 → ∀ line ∈ lines v, isSample line) (keys : List String) :
    (seriesLines m lines keys).filter isSample = seriesLines m lines keys := by
  rw [List.filter_eq_self]
  intro line hline
  obtain ⟨v, hv, hline⟩ := List.mem_flatMap.mp hline
  obtain ⟨key, -, hkey⟩ := List.mem_filterMap.mp hv
  exact hlines v (h key v hkey).2.2.visible line hline

/-- What is written under a name besides comments: the series of the three maps with this name,
of which only one has any. -/
theorem Filed.filter_nameLines {kind : String → SeriesKind} {r : Registry}
    (h : Filed isPrint kind r) {name : String} (hn : name ∈ r.help) :
    (r.nameLines isPrint formatFloat formatSum name).filter isSample =
      seriesLines r.counters (Counter.lines isPrint) (sortedKeysOf r.counters name) ++
        seriesLines r.gauges (Counter.lines isPrint) (sortedKeysOf r.gauges name) ++
        seriesLines r.histograms (Histogram.lines isPrint formatFloat formatSum)
          (sortedKeysOf r.histograms name) := by
  have hclean := h.names name hn
  have hnil : ∀ {β : Type} (m : Map String β) (lines : β → List String),
      hasSeries m name = false → seriesLines m lines (sortedKeysOf m name) = [] := by
    intro β m lines hm
    rw [sortedKeysOf_eq_nil hm]
    rfl
  have hcounters := h.counters.filter_seriesLines (Counter.lines isPrint)
    (fun _ => Counter.isSample_lines) (sortedKeysOf r.counters name)
  have hgauges := h.gauges.filter_seriesLines (Counter.lines isPrint)
    (fun _ => Counter.isSample_lines) (sortedKeysOf r.gauges name)
  have hhistograms := h.histograms.filter_seriesLines
    (Histogram.lines isPrint formatFloat formatSum)
    (fun _ => Histogram.isSample_lines) (sortedKeysOf r.histograms name)
  rw [Registry.nameLines, Registry.writtenKind]
  -- the kind of the name rules the other two maps out
  cases hk : kind name with
  | counter =>
    have hg := h.gauges.hasSeries_eq_false hclean (by simp [hk])
    have hh := h.histograms.hasSeries_eq_false hclean (by simp [hk])
    rw [hnil r.gauges _ hg, hnil r.histograms _ hh, hg, hh]
    cases hc : hasSeries r.counters name with
    | false => simp [hnil r.counters _ hc]
    | true => simp [filter_writeHeader, hcounters]
  | gauge =>
    have hc := h.counters.hasSeries_eq_false hclean (by simp [hk])
    have hh := h.histograms.hasSeries_eq_false hclean (by simp [hk])
    rw [hnil r.counters _ hc, hnil r.histograms _ hh, hc, hh]
    cases hg : hasSeries r.gauges name with
    | false => simp [hnil r.gauges _ hg]
    | true => simp [filter_writeHeader, hgauges]
  | histogram =>
    have hc := h.counters.hasSeries_eq_false hclean (by simp [hk])
    have hg := h.gauges.hasSeries_eq_false hclean (by simp [hk])
    rw [hnil r.counters _ hc, hnil r.gauges _ hg, hc, hg]
    cases hh : hasSeries r.histograms name with
    | false => simp [hnil r.histograms _ hh]
    | true => simp [filter_writeHeader, hhistograms]

theorem Filed.samples {kind : String → SeriesKind} {r : Registry} (h : Filed isPrint kind r) :
    ((r.lines isPrint formatFloat formatSum).filter isSample).Perm
      (r.everySample isPrint formatFloat formatSum) := by
  have hblank : [""].filter isSample = [] := by decide
  have hlines : (r.lines isPrint formatFloat formatSum).filter isSample =
      r.names.flatMap (fun name =>
        seriesLines r.counters (Counter.lines isPrint) (sortedKeysOf r.counters name) ++
          seriesLines r.gauges (Counter.lines isPrint) (sortedKeysOf r.gauges name) ++
          seriesLines r.histograms (Histogram.lines isPrint formatFloat formatSum)
            (sortedKeysOf r.histograms name)) := by
    rw [Registry.lines, List.filter_flatMap]
    refine List.flatMap_congr (fun name hname => ?_)
    rw [List.filter_append, hblank, List.append_nil,
      h.filter_nameLines (mem_sortedKeys.mp hname)]
  rw [hlines]
  refine (List.flatMap_append_perm _ _ _).symm.trans (List.Perm.append ?_ ?_)
  · refine (List.flatMap_append_perm _ _ _).symm.trans (List.Perm.append ?_ ?_)
    · exact h.counters.perm h.names _
    · exact h.gauges.perm h.names _
  · exact h.histograms.perm h.names _

theorem Holds.lookup_series {kind : String → SeriesKind} {β : Type} {k : SeriesKind}
    {series : β → String × Labels} {help : Map String String} {m : Map String β}
    (h : Holds isPrint kind k series help m) {name : String} {labels : Labels}
    (hs : CleanSeries name labels) {v : β}
    (hv : m.lookup (seriesKey isPrint name labels) = some v) : series v = (name, labels) := by
  obtain ⟨hkey, -, hnamed⟩ := h _ v hv
  obtain ⟨hname, hlabels⟩ := (seriesKey_inj isPrint hs.name hnamed.clean.name hs.labels
    hnamed.clean.labels).mp hkey
  exact Prod.ext hname.symm hlabels.symm

/-- A counter that is not zero is written with its value. -/
theorem Filed.mem_lines {kind : String → SeriesKind} {r : Registry} (h : Filed isPrint kind r)
    {name : String} {labels : Labels} (hs : CleanSeries name labels)
    (hpos : r.counterValue isPrint name labels ≠ 0) :
    sampleLine isPrint name labels (toString (r.counterValue isPrint name labels)) ∈
      r.lines isPrint formatFloat formatSum := by
  cases hc : r.counters.lookup (seriesKey isPrint name labels) with
  | none => exact absurd (by rw [Registry.counterValue, hc]; rfl) hpos
  | some c =>
    obtain ⟨hname, hlabels⟩ := Prod.mk.inj (h.counters.lookup_series hs hc)
    have hvalue : r.counterValue isPrint name labels = c.value := by
      rw [Registry.counterValue, hc]
      rfl
    have hline : sampleLine isPrint name labels (toString (r.counterValue isPrint name labels)) ∈
        seriesLines r.counters (Counter.lines isPrint) (sortedKeys r.counters) := by
      refine List.mem_flatMap.mpr ⟨c, List.mem_filterMap.mpr ⟨_, ?_, hc⟩, ?_⟩
      · exact mem_sortedKeys.mpr (mem_iff_lookup.mpr ⟨c, hc⟩)
      · rw [hvalue, ← hname, ← hlabels]
        exact List.mem_singleton_self _
    exact List.mem_of_mem_filter
      (h.samples.mem_iff.mpr (List.mem_append_left _ (List.mem_append_left _ hline)))

end Samples

/-! ## The series of the collector -/

/-- The kind of series each metric is. -/
def metricKind (name : String) : SeriesKind :=
  if name = metricPublishTime ∨ name = metricHandleTime then .histogram
  else if name = metricQueueDepth ∨ name = metricInFlight ∨ name = metricScheduled then .gauge
  else .counter

section Fits
variable {kind : String → SeriesKind} {name : String} {labels : Labels}

theorem fits_countUp (hn : Named kind .counter name labels) (help : String) :
    ∀ step ∈ countUp name help labels, step.Fits kind := by
  simp only [countUp, List.forall_mem_cons]
  exact ⟨hn, trivial, by simp⟩

theorem fits_setGauge (hn : Named kind .gauge name labels) (help : String) (value : ℤ) :
    ∀ step ∈ setGauge name help labels value, step.Fits kind := by
  simp only [setGauge, List.forall_mem_cons]
  exact ⟨hn, trivial, by simp⟩

theorem fits_observeDuration (hn : Named kind .histogram name labels) (help : String)
    (elapsed : Duration) : ∀ step ∈ observeDuration name help labels elapsed, step.Fits kind := by
  simp only [observeDuration, List.forall_mem_cons]
  exact ⟨hn, trivial, by simp⟩

end Fits

theorem Report.fits (report : Report) : ∀ step ∈ report.steps, step.Fits metricKind := by
  have hqueue : ∀ k name queue, metricKind name = k → isSample name → CleanName name →
      Named metricKind k name (ofQueue queue) :=
    fun k name queue hk hs hn => ⟨hk, hs, hn, cleanLabels_ofQueue queue⟩
  cases report with
  | messagePublished queue latency =>
    exact List.forall_mem_append.mpr
      ⟨fits_countUp (hqueue _ _ queue (by decide) (by decide) (by decide)) _,
        fits_observeDuration ⟨by decide, by decide, by decide, cleanLabels_empty⟩ _ latency⟩
  | messageDelivered queue =>
    exact fits_countUp (hqueue _ _ queue (by decide) (by decide) (by decide)) _
  | messageAcknowledged queue latency =>
    exact List.forall_mem_append.mpr
      ⟨fits_countUp (hqueue _ _ queue (by decide) (by decide) (by decide)) _,
        fits_observeDuration (hqueue _ _ queue (by decide) (by decide) (by decide)) _ latency⟩
  | messageRetried queue =>
    exact fits_countUp (hqueue _ _ queue (by decide) (by decide) (by decide)) _
  | messageDeadLettered queue kind =>
    exact fits_countUp ⟨by decide, by decide, by decide, cleanLabels_ofKind queue kind⟩ _
  | messageRejected queue =>
    exact fits_countUp (hqueue _ _ queue (by decide) (by decide) (by decide)) _
  | queueDepth queue ready inFlight scheduled =>
    exact List.forall_mem_append.mpr ⟨List.forall_mem_append.mpr
      ⟨fits_setGauge (hqueue _ _ queue (by decide) (by decide) (by decide)) _ ready,
        fits_setGauge (hqueue _ _ queue (by decide) (by decide) (by decide)) _ inFlight⟩,
      fits_setGauge (hqueue _ _ queue (by decide) (by decide) (by decide)) _ scheduled⟩

/-- What a reader of the exposition finds: one sample for each value of each series, and, once
nothing is on its way, each counter with the number of reports on it. -/
structure Exposed (isPrint : Char → Bool) (formatFloat formatSum : ℚ → String)
    (x : Scripts Registry Report Step) : Prop where
  samples : ((x.state.lines isPrint formatFloat formatSum).filter isSample).Perm
    (x.state.everySample isPrint formatFloat formatSum)
  counted : x.Finished → ∀ report ∈ x.started, ∀ name labels,
    report.raises = some (name, labels) →
      sampleLine isPrint name labels
          (toString (x.started.countP (fun r => r.raises = some (name, labels)) : ℤ)) ∈
        x.state.lines isPrint formatFloat formatSum

/-- After reports in any order every series is written, and none twice. -/
theorem exposition_exact (isPrint : Char → Bool) (formatFloat formatSum : ℚ → String)
    (turns : List (Turn Report)) :
    Exposed isPrint formatFloat formatSum
      (Scripts.run (Registry.step isPrint) Report.steps newRegistry turns) := by
  generalize hx : Scripts.run (Registry.step isPrint) Report.steps newRegistry turns = x
  have hsound : x.Sound (Registry.step isPrint) Report.steps newRegistry :=
    hx ▸ Scripts.run_sound newRegistry turns
  have hfiled : Filed isPrint metricKind x.state := by
    rw [hsound.state]
    refine filed_after (fun step hstep => ?_)
    obtain ⟨report, -, hmem⟩ := exists_report_of_made hsound hstep
    exact report.fits step hmem
  refine ⟨hfiled.samples, fun hfinished report hreport name labels hraises => ?_⟩
  have hs : CleanSeries name labels := Report.raises_clean hraises
  have hcount := count_made hsound name labels
  rw [List.flatten_eq_nil_iff.mpr hfinished, List.count_nil, Nat.add_zero] at hcount
  have hvalue := (shown_of_sound hsound).counters name labels hs
  rw [hcount] at hvalue
  have hpos : 0 < x.started.countP (fun r => r.raises = some (name, labels)) :=
    List.countP_pos_iff.mpr ⟨report, hreport, by simpa using hraises⟩
  rw [← hvalue]
  exact hfiled.mem_lines hs (by omega)

end RabbitmqLite.Metrics
