import RabbitmqLite.Collections.OnDemand
import RabbitmqLite.Collections.Ranks
import RabbitmqLite.Text.Quoted

/-! # The metrics registry

A registry finds counters, gauges and histograms under the text of their name
and labels. A series that is asked for is made on the first occasion and never
removed, so that the text stands for the pointer a caller is handed. Values are
integers, and observations rationals where the source has `float64`. Which
characters `strconv.Quote` prints and how a number is written are parameters.
-/

namespace RabbitmqLite.Metrics
open Collections Text

abbrev Labels := Map String String

structure Counter where
  name : String
  labels : Labels
  value : ℤ

/-- A gauge has the fields of a counter. -/
abbrev Gauge := Counter

structure Histogram where
  name : String
  labels : Labels
  bounds : List ℚ
  buckets : List ℕ
  count : ℕ
  sum : ℚ

structure Registry where
  counters : Map String Counter
  gauges : Map String Gauge
  histograms : Map String Histogram
  help : Map String String

def defaultBuckets : List ℚ :=
  [1/2000, 1/1000, 1/400, 1/200, 1/100, 1/40, 1/20, 1/10, 1/4, 1/2, 1, 5/2, 5, 10]

def newRegistry : Registry := ⟨∅, ∅, ∅, ∅⟩

/-! ## The text of a series -/

section Render
variable (isPrint : Char → Bool)

def renderPair (pair : String × String) : List Char :=
  pair.1.toList ++ '=' :: quoted isPrint pair.2.toList

def renderPairs (pairs : List (String × String)) : List Char :=
  List.intercalate [','] (pairs.map (renderPair isPrint))

/-- The labels in the order of their names. -/
def Labels.pairs (labels : Labels) : List (String × String) :=
  (sortedKeys labels).filterMap (fun name => (labels.lookup name).map (fun value => (name, value)))

def renderLabels (labels : Labels) : String :=
  String.ofList (renderPairs isPrint (Labels.pairs labels))

def seriesKey (name : String) (labels : Labels) : String :=
  name ++ "\x7b" ++ renderLabels isPrint labels ++ "\x7d"

def renderSeries (name : String) (labels : Labels) : String :=
  if renderLabels isPrint labels = "" then name
  else name ++ "\x7b" ++ renderLabels isPrint labels ++ "\x7d"

/-! ## Series -/

def Counter.add (delta : ℤ) (c : Counter) : Counter := { c with value := c.value + delta }

def Gauge.set (value : ℤ) (g : Gauge) : Gauge := { g with value := value }

/-- Every bucket whose bound is not below the value is raised. -/
def Histogram.observe (value : ℚ) (h : Histogram) : Histogram :=
  { h with
    count := h.count + 1
    sum := h.sum + value
    buckets := List.zipWith (fun bound n => if value ≤ bound then n + 1 else n) h.bounds h.buckets }

def newHistogram (name : String) (bounds : List ℚ) (labels : Labels) : Histogram :=
  let bounds := if bounds.isEmpty then defaultBuckets else bounds
  ⟨name, labels, bounds, List.replicate bounds.length 0, 0, 0⟩

/-- The loop of `Quantile`; `none` is infinity. -/
def quantileLoop (target : ℚ) : List ℚ → List ℕ → Option ℚ
  | bound :: bounds, n :: buckets =>
    if target ≤ n then some bound else quantileLoop target bounds buckets
  | _, _ => none

def Histogram.quantile (h : Histogram) (quantile : ℚ) : Option ℚ :=
  if h.count = 0 then some 0 else quantileLoop (quantile * h.count) h.bounds h.buckets

namespace Registry

def counter (r : Registry) (name help : String) (labels : Labels) : Registry :=
  { r with
    help := r.help.insert name help
    counters := askFor r.counters (seriesKey isPrint name labels) ⟨name, labels, 0⟩ }

def gauge (r : Registry) (name help : String) (labels : Labels) : Registry :=
  { r with
    help := r.help.insert name help
    gauges := askFor r.gauges (seriesKey isPrint name labels) ⟨name, labels, 0⟩ }

def histogram (r : Registry) (name help : String) (bounds : List ℚ) (labels : Labels) : Registry :=
  { r with
    help := r.help.insert name help
    histograms := askFor r.histograms (seriesKey isPrint name labels)
      (newHistogram name bounds labels) }

end Registry
end Render

/-! ## Observations -/

/-- The histogram after some values were observed, from an empty one. -/
structure Observed (h : Histogram) (values : List ℚ) : Prop where
  buckets : h.buckets = h.bounds.map (fun bound => values.countP (· ≤ bound))
  count : h.count = values.length
  sum : h.sum = values.sum

theorem newHistogram_observed (name : String) (bounds : List ℚ) (labels : Labels) :
    Observed (newHistogram name bounds labels) [] := by
  refine ⟨?_, rfl, rfl⟩
  simp only [newHistogram, List.countP_nil]
  rw [List.map_const']

theorem Observed.observe {h : Histogram} {values : List ℚ} (ho : Observed h values) (value : ℚ) :
    Observed (h.observe value) (values ++ [value]) := by
  refine ⟨?_, ?_, ?_⟩
  · simp only [Histogram.observe, ho.buckets, List.zipWith_map_right, List.zipWith_self]
    refine List.map_congr_left (fun bound _ => ?_)
    rw [List.countP_append, List.countP_singleton]
    by_cases hle : value ≤ bound <;> simp [hle]
  · simp only [Histogram.observe, ho.count, List.length_append, List.length_singleton]
  · simp only [Histogram.observe, ho.sum, List.sum_append, List.sum_singleton]

theorem observed_foldl {h : Histogram} {values : List ℚ} (ho : Observed h values)
    (more : List ℚ) :
    Observed (more.foldl (fun h v => h.observe v) h) (values ++ more) := by
  induction more generalizing h values with
  | nil => simpa using ho
  | cons v more ih => simpa using ih (ho.observe v)

theorem foldl_observe_bounds (h : Histogram) (values : List ℚ) :
    (values.foldl (fun h v => h.observe v) h).bounds = h.bounds := by
  induction values generalizing h with
  | nil => rfl
  | cons v values ih => exact ih (h.observe v)

/-! ## Quantiles -/

theorem quantileLoop_map (target : ℚ) (f : ℚ → ℕ) (bounds : List ℚ) :
    quantileLoop target bounds (bounds.map f) = bounds.find? (fun bound => target ≤ f bound) := by
  induction bounds with
  | nil => rfl
  | cons bound bounds ih =>
    rw [List.map_cons, quantileLoop, ih, List.find?_cons]
    by_cases h : target ≤ f bound <;> simp [h]

/-- Where a value lies between the bounds, as far as an answer says. -/
structure Brackets (bounds : List ℚ) (value : ℚ) (answer : Option ℚ) : Prop where
  bounded : ∀ bound, answer = some bound →
    bound ∈ bounds ∧ value ≤ bound ∧ ∀ smaller ∈ bounds, smaller < bound → smaller < value
  unbounded : answer = none → ∀ bound ∈ bounds, bound < value

theorem brackets_find {bounds : List ℚ} (hb : bounds.Pairwise (· < ·)) {value : ℚ}
    {reached : ℚ → Bool} (hr : ∀ bound ∈ bounds, (reached bound = true ↔ value ≤ bound)) :
    Brackets bounds value (bounds.find? reached) where
  bounded := by
    intro bound hfind
    obtain ⟨hbound, before, after, rfl, hbefore⟩ := List.find?_eq_some_iff_append.mp hfind
    refine ⟨by simp, (hr bound (by simp)).mp hbound, fun smaller hs hlt => ?_⟩
    -- a smaller bound stands before the one that was found
    have hmem : smaller ∈ before := by
      rcases List.mem_append.mp hs with hs | hs
      · exact hs
      · have hpos := (List.pairwise_append.mp hb).2.1
        rcases List.mem_cons.mp hs with rfl | hs
        · exact absurd hlt (lt_irrefl _)
        · exact absurd hlt (not_lt.mpr ((List.pairwise_cons.mp hpos).1 smaller hs).le)
    have hnot := hbefore smaller hmem
    rw [Bool.not_eq_true', ← Bool.not_eq_true, hr smaller hs] at hnot
    exact not_le.mp hnot
  unbounded := by
    intro hfind bound hmem
    have hnot := List.find?_eq_none.mp hfind bound hmem
    rw [hr bound hmem] at hnot
    exact not_le.mp hnot

theorem Observed.quantile {h : Histogram} {values : List ℚ} (ho : Observed h values)
    (hb : h.bounds.Pairwise (· < ·)) (hv : values ≠ []) {q : ℚ} (hq : 0 < q) (hq1 : q ≤ 1) :
    ∃ value, (values.insertionSort (· ≤ ·))[⌈q * values.length⌉₊ - 1]? = some value ∧
      Brackets h.bounds value (h.quantile q) := by
  have hn : 0 < values.length := List.length_pos_iff.mpr hv
  have hpos : 0 < ⌈q * values.length⌉₊ := Nat.ceil_pos.mpr (by positivity)
  have hle : ⌈q * values.length⌉₊ ≤ values.length := by
    rw [Nat.ceil_le]
    exact mul_le_of_le_one_left (by positivity) hq1
  have hi : ⌈q * values.length⌉₊ - 1 < (values.insertionSort (· ≤ ·)).length := by
    rw [List.length_insertionSort]
    omega
  refine ⟨_, List.getElem?_eq_getElem hi, ?_⟩
  rw [Histogram.quantile, if_neg (by rw [ho.count]; omega), ho.buckets, quantileLoop_map, ho.count]
  refine brackets_find hb (fun bound _ => ?_)
  have hcount := (List.perm_insertionSort (· ≤ ·) values).countP_eq (· ≤ bound)
  rw [decide_eq_true_eq, getElem_le_iff (List.pairwise_insertionSort _ _) bound hi, hcount,
    ← Nat.ceil_le]
  omega

theorem defaultBuckets_increasing : defaultBuckets.Pairwise (· < ·) := by
  norm_num [defaultBuckets, List.pairwise_cons]

/-- `Quantile` answers with the bound of the bucket in which the quantile of all observations
lies, or with infinity if it lies above all bounds. -/
theorem quantile_brackets (name : String) (labels : Labels) (bounds values : List ℚ)
    (hb : bounds.Pairwise (· < ·)) (hv : values ≠ []) (q : ℚ) (hq : 0 < q) (hq1 : q ≤ 1) :
    ∃ value, (values.insertionSort (· ≤ ·))[⌈q * values.length⌉₊ - 1]? = some value ∧
      Brackets (newHistogram name bounds labels).bounds value
        ((values.foldl (fun h v => h.observe v) (newHistogram name bounds labels)).quantile q) := by
  have ho := observed_foldl (newHistogram_observed name bounds labels) values
  have hincreasing : (newHistogram name bounds labels).bounds.Pairwise (· < ·) := by
    simp only [newHistogram]
    split_ifs
    · exact defaultBuckets_increasing
    · exact hb
  rw [← foldl_observe_bounds _ values] at hincreasing ⊢
  exact ho.quantile hincreasing hv hq hq1

/-- Two short observations and a long one: the median is in the first bucket. -/
theorem quantile_brackets_median :
    ([1/200, 2/25, 1/200].foldl (fun h v => h.observe v)
        (newHistogram "latency_seconds" [1/100, 1/20, 1/10] ∅)).quantile (1/2) = some (1/100) ∧
      Brackets [1/100, 1/20, 1/10] (1/200) (some (1/100)) := by
  obtain ⟨value, hvalue, hbrackets⟩ := quantile_brackets "latency_seconds" ∅ [1/100, 1/20, 1/10]
    [1/200, 2/25, 1/200] (by norm_num) (by simp) (1/2) (by norm_num) (by norm_num)
  have hanswer : ([1/200, 2/25, 1/200].foldl (fun h v => h.observe v)
      (newHistogram "latency_seconds" [1/100, 1/20, 1/10] ∅)).quantile (1/2) = some (1/100) := by
    decide +kernel
  have hmedian : (([1/200, 2/25, 1/200] : List ℚ).insertionSort (· ≤ ·))[
      ⌈(1/2 : ℚ) * (([1/200, 2/25, 1/200] : List ℚ).length : ℚ)⌉₊ - 1]? = some (1/200) := by
    decide +kernel
  rw [hanswer, Option.some.inj (hvalue.symm.trans hmedian)] at hbrackets
  exact ⟨hanswer, hbrackets⟩

end RabbitmqLite.Metrics
