import Mathlib.Data.List.Sort
import Veduta.State.CardState

/-!
# Downsampling

Package `state`, for the history that a card's state carries: the readings of a signal in a window,
as at most `maxHistoryPoints` points.  If there are too many, each of equal buckets of time becomes
its mean; a long silence becomes a point without a value.
-/

namespace Veduta.State

open Go Widgets

/-- The sum of two doubles; `none` is a double that is not finite. -/
def addFloat64 (x y : Option ℚ) : Option ℚ := x.bind fun a => y.bind fun b => toFloat64 (a + b)

def divFloat64 (x : Option ℚ) (n : ℕ) : Option ℚ := x.bind fun a => toFloat64 (a / n)

structure Sample where
  t : ℤ
  v : Option ℚ

/-- A point of a history; without a value it marks a gap. -/
structure Point where
  t : Bytes
  v : Option (Option ℚ)

/-- The point as it is encoded; a value that is not finite cannot be. -/
def Point.encode (p : Point) : Option SeriesPoint :=
  match p.v with
  | none => some ⟨p.t, none⟩
  | some v => v.map fun q => ⟨p.t, some q⟩

/-- Of the samples at one instant, the last one stays. -/
def dedup : List Sample → List Sample
  | s :: s' :: rest => if s.t = s'.t then dedup (s' :: rest) else s :: dedup (s' :: rest)
  | in_ => in_

/-- The end of a bucket. -/
def flush (sum : Option ℚ) (n : ℕ) (last : ℤ) : List Sample :=
  if 0 < n then [⟨last, divFloat64 sum n⟩] else []

/-- The means of the buckets, each at the time of its last sample. -/
def bucketLoop (origin width : ℤ) : ℤ → Option ℚ → ℕ → ℤ → List Sample → List Sample
  | _, sum, n, last, [] => flush sum n last
  | bucket, sum, n, last, s :: rest =>
    let b := (s.t - origin).tdiv width
    if b ≠ bucket then
      flush sum n last ++ bucketLoop origin width b (addFloat64 (some 0) s.v) 1 s.t rest
    else bucketLoop origin width bucket (addFloat64 sum s.v) (n + 1) s.t rest

/-- Half of the points are left for the marks of gaps. -/
def sampleBudget : ℕ := maxHistoryPoints / 2

def buckets (samples : List Sample) (origin upTo : ℤ) : List Sample :=
  if sampleBudget < samples.length then
    let width := (upTo - origin).tdiv sampleBudget
    bucketLoop origin (if width ≤ 0 then 1 else width) (-1) (some 0) 0 zeroTime samples
  else samples

/-- The usual time between two samples, or zero if there are too few to say. -/
def medianSpacing (samples : List Sample) : ℤ :=
  if samples.length < 3 then 0
  else
    let d := (samples.zip samples.tail).map fun p => p.2.t - p.1.t
    (d.insertionSort (· ≤ ·))[d.length / 2]?.getD 0

def gapFactor : ℤ := 3

/-- The mark of a gap between two samples, if it is one and there is room. -/
def gapMark (gap : ℤ) (prev : Option ℤ) (s : Sample) (points : List Point) : List Point :=
  match prev with
  | none => []
  | some p =>
    if 0 < gap ∧ gap < s.t - p ∧ points.length < maxHistoryPoints - 1 then
      [⟨formatTime (p + (s.t - p).tdiv 2), none⟩]
    else []

/-- The points of the samples, with the marks of gaps among them. -/
def pointLoop (gap : ℤ) : Option ℤ → List Point → List Sample → List Point
  | _, points, [] => points
  | prev, points, s :: rest =>
    let points := points ++ gapMark gap prev s points
    if points.length = maxHistoryPoints then points
    else pointLoop gap (some s.t) (points ++ [⟨formatTime s.t, some s.v⟩]) rest

/-- `Downsample`.  The sort of the source is not stable, which only matters for two samples at one
instant. -/
def downsample (samples : List Sample) (origin upTo : ℤ) : List Point :=
  let inside := samples.filter fun s => decide (origin ≤ s.t ∧ s.t ≤ upTo)
  let sorted := inside.insertionSort fun x y => x.t ≤ y.t
  let means := buckets (dedup sorted) origin upTo
  pointLoop (medianSpacing means * gapFactor) none [] means

example : (downsample [⟨20, some 2⟩, ⟨10, some 1⟩, ⟨30, some 3⟩, ⟨90, some 5⟩] 10 80).map Point.v =
    [some (some 1), some (some 2), some (some 3)] := by decide +kernel

variable {points : List Point} {samples : List Sample} {origin upTo : ℤ}

theorem length_gapMark_le (gap : ℤ) (prev : Option ℤ) (s : Sample)
    (h : points.length ≤ maxHistoryPoints) :
    (points ++ gapMark gap prev s points).length ≤ maxHistoryPoints := by
  rw [List.length_append]
  unfold gapMark
  split
  · exact h
  · split_ifs with hgap
    · rw [List.length_singleton]
      omega
    · exact h

theorem length_pointLoop_le (gap : ℤ) (prev : Option ℤ) (h : points.length ≤ maxHistoryPoints)
    (samples : List Sample) : (pointLoop gap prev points samples).length ≤ maxHistoryPoints := by
  induction samples generalizing prev points with
  | nil => exact h
  | cons s rest ih =>
    have hmark := length_gapMark_le gap prev s h
    rw [pointLoop]
    split_ifs with hfull
    · exact hmark
    · apply ih
      rw [List.length_append, List.length_singleton]
      omega

/-- **The points fit.** -/
theorem length_downsample_le (samples : List Sample) (origin upTo : ℤ) :
    (downsample samples origin upTo).length ≤ maxHistoryPoints :=
  length_pointLoop_le _ _ (Nat.zero_le _) _

theorem dedup_eq_nil_iff : dedup samples = [] ↔ samples = [] := by
  induction samples with
  | nil => rfl
  | cons s rest ih =>
    cases rest with
    | nil => rfl
    | cons s' rest =>
      rw [dedup]
      split_ifs
      · rw [ih]
        simp
      · simp

theorem bucketLoop_ne_nil {width bucket last : ℤ} {sum : Option ℚ} {n : ℕ} (h : 0 < n)
    (samples : List Sample) : bucketLoop origin width bucket sum n last samples ≠ [] := by
  induction samples generalizing bucket sum n last with
  | nil => simp [bucketLoop, flush, h]
  | cons s rest ih =>
    rw [bucketLoop]
    split_ifs
    · simp [ih Nat.zero_lt_one]
    · exact ih (Nat.succ_pos n)

theorem buckets_eq_nil_iff : buckets samples origin upTo = [] ↔ samples = [] := by
  rw [buckets]
  split_ifs with hmany
  · cases samples with
    | nil => simp at hmany
    | cons s rest =>
      simp only [bucketLoop, reduceCtorEq, iff_false]
      generalize (if (upTo - origin).tdiv sampleBudget ≤ 0 then 1
        else (upTo - origin).tdiv sampleBudget) = width
      split_ifs
      · simp [bucketLoop_ne_nil Nat.zero_lt_one]
      · exact bucketLoop_ne_nil Nat.zero_lt_one _
  · rfl

theorem pointLoop_ne_nil {gap : ℤ} {prev : Option ℤ} (h : points ≠ []) (samples : List Sample) :
    pointLoop gap prev points samples ≠ [] := by
  induction samples generalizing prev points with
  | nil => exact h
  | cons s rest ih =>
    rw [pointLoop]
    split_ifs
    · simp [h]
    · exact ih (by simp)

/-- **There are points** exactly if there is a sample in the window. -/
theorem downsample_eq_nil_iff :
    downsample samples origin upTo = [] ↔ ∀ s ∈ samples, ¬ (origin ≤ s.t ∧ s.t ≤ upTo) := by
  have hloop : ∀ (gap : ℤ) (means : List Sample),
      pointLoop gap none [] means = [] ↔ means = [] := by
    intro gap means
    cases means with
    | nil => simp [pointLoop]
    | cons s rest =>
      have hne : pointLoop gap (some s.t) [⟨formatTime s.t, some s.v⟩] rest ≠ [] :=
        pointLoop_ne_nil (by simp) rest
      simpa [pointLoop, gapMark, maxHistoryPoints] using hne
  rw [downsample, hloop, buckets_eq_nil_iff, dedup_eq_nil_iff, ← List.length_eq_zero_iff,
    List.length_insertionSort, List.length_eq_zero_iff, List.filter_eq_nil_iff]
  simp only [decide_eq_true_eq]

end Veduta.State
