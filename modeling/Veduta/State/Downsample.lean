import Mathlib.Data.Int.Interval
import Veduta.State.History

/-!
# What downsampling keeps

Package `state`: the points of a history are in order, each value stands at the time of a reading,
a mark stands between two values, and the newest reading is the last point.  The bound on the
points cuts nothing off: a window of 144 equal buckets has at most 145 means, and fewer than half
of their spacings are longer than the median.
-/

namespace Veduta.State

open Go Widgets

section

variable {samples : List Sample} {origin upTo : ℤ}

instance : Std.Total fun x y : Sample => x.t ≤ y.t := ⟨fun x y => le_total x.t y.t⟩

instance : IsTrans Sample fun x y => x.t ≤ y.t := ⟨fun _ _ _ => le_trans⟩

theorem dedup_spec {l : List Sample} (h : l.Pairwise fun x y => x.t ≤ y.t) :
    (dedup l).Pairwise (fun x y => x.t < y.t) ∧ (∀ s ∈ dedup l, s ∈ l) ∧
      ∀ s ∈ l, ∃ s' ∈ dedup l, s'.t = s.t := by
  fun_induction dedup l with
  | case1 s s' rest heq ih =>
    obtain ⟨hsorted, hsub, hall⟩ := ih (List.pairwise_cons.mp h).2
    refine ⟨hsorted, fun x hx => List.mem_cons_of_mem _ (hsub x hx), fun x hx => ?_⟩
    rcases List.mem_cons.mp hx with rfl | hx
    · obtain ⟨y, hy, ht⟩ := hall s' List.mem_cons_self
      exact ⟨y, hy, ht.trans heq.symm⟩
    · exact hall x hx
  | case2 s s' rest hne ih =>
    obtain ⟨hfirst, hrest⟩ := List.pairwise_cons.mp h
    obtain ⟨hsorted, hsub, hall⟩ := ih hrest
    refine ⟨List.pairwise_cons.mpr ⟨fun x hx => ?_, hsorted⟩, fun x hx => ?_, fun x hx => ?_⟩
    · -- the next sample is later, and what follows is no earlier than it
      have hlt : s.t < s'.t := lt_of_le_of_ne (hfirst s' List.mem_cons_self) hne
      rcases List.mem_cons.mp (hsub x hx) with rfl | hx'
      · exact hlt
      · exact lt_of_lt_of_le hlt ((List.pairwise_cons.mp hrest).1 x hx')
    · rcases List.mem_cons.mp hx with rfl | hx
      · exact List.mem_cons_self
      · exact List.mem_cons_of_mem _ (hsub x hx)
    · rcases List.mem_cons.mp hx with rfl | hx
      · exact ⟨x, List.mem_cons_self, rfl⟩
      · obtain ⟨y, hy, ht⟩ := hall x hx
        exact ⟨y, List.mem_cons_of_mem _ hy, ht⟩
  | case3 l hl =>
    match l, hl with
    | [], _ => simp
    | [s], _ => simp
    | s :: s' :: rest, hl => exact absurd rfl (hl s s' rest)

theorem dedup_sorted_spec :
    let xs := dedup ((samples.filter fun s => decide (origin ≤ s.t ∧ s.t ≤ upTo)).insertionSort
      fun x y => x.t ≤ y.t)
    xs.Pairwise (fun x y => x.t < y.t) ∧
      (∀ x ∈ xs, x ∈ samples ∧ origin ≤ x.t ∧ x.t ≤ upTo) ∧
      ∀ s ∈ samples, origin ≤ s.t → s.t ≤ upTo → ∃ x ∈ xs, x.t = s.t := by
  intro xs
  obtain ⟨hsorted, hsub, hall⟩ := dedup_spec (List.pairwise_insertionSort
    (fun x y : Sample => x.t ≤ y.t)
    (samples.filter fun s => decide (origin ≤ s.t ∧ s.t ≤ upTo)))
  refine ⟨hsorted, fun x hx => ?_, fun s hs hlow hhigh => hall s ?_⟩
  · simpa [List.mem_insertionSort, List.mem_filter, and_assoc] using hsub x hx
  · simp [List.mem_insertionSort, List.mem_filter, hs, hlow, hhigh]

end

/-! ## Means -/

def bucketOf (origin width t : ℤ) : ℤ := (t - origin).tdiv width

variable {width gap : ℤ} {l : List ℤ} {prev : Option ℤ}

theorem bucketOf_mono {origin t u : ℤ} (hwidth : 0 < width) (ht : origin ≤ t) (h : t ≤ u) :
    bucketOf origin width t ≤ bucketOf origin width u := by
  rw [bucketOf, bucketOf, Int.tdiv_eq_ediv_of_nonneg (by omega),
    Int.tdiv_eq_ediv_of_nonneg (by omega)]
  exact Int.ediv_le_ediv hwidth (by omega)

/-- **The loop over the buckets**: its means stand at times of samples, one for each bucket, and
the last one at the last sample. -/
theorem bucketLoop_spec {origin last : ℤ} (hwidth : 0 < width) {sum : Option ℚ} {n : ℕ} (hn : 0 < n)
    (horigin : origin ≤ last) {samples : List Sample}
    (h : (last :: samples.map Sample.t).Pairwise (· < ·)) :
    let out := bucketLoop origin width (bucketOf origin width last) sum n last samples
    (out.map Sample.t).Sublist (last :: samples.map Sample.t) ∧
      (out.map fun s => bucketOf origin width s.t).Pairwise (· < ·) ∧
      (∀ s ∈ out, bucketOf origin width last ≤ bucketOf origin width s.t) ∧
      (out.map Sample.t).getLast? = (last :: samples.map Sample.t).getLast? := by
  induction samples generalizing last sum n with
  | nil => simp [bucketLoop, flush, hn]
  | cons s rest ih =>
    rw [List.map_cons] at h ⊢
    obtain ⟨hlast, hrest⟩ := List.pairwise_cons.mp h
    have hlt : last < s.t := hlast s.t List.mem_cons_self
    have hmono := bucketOf_mono hwidth horigin hlt.le
    rw [bucketLoop]
    dsimp only
    split_ifs with hb
    · -- a new bucket: the old one ends at `last`
      obtain ⟨hsub, hpair, hlow, hend⟩ :=
        @ih s.t (addFloat64 (some 0) s.v) 1 Nat.one_pos (by omega) hrest
      rw [← bucketOf] at hb ⊢
      have hnew : bucketOf origin width last < bucketOf origin width s.t :=
        lt_of_le_of_ne hmono (Ne.symm hb)
      simp only [flush, hn, if_true, List.singleton_append, List.map_cons]
      refine ⟨hsub.cons_cons _, List.pairwise_cons.mpr ⟨fun b hb => ?_, hpair⟩, ?_, ?_⟩
      · obtain ⟨x, hx, rfl⟩ := List.mem_map.mp hb
        exact lt_of_lt_of_le hnew (hlow x hx)
      · intro x hx
        rcases List.mem_cons.mp hx with rfl | hx
        · exact le_rfl
        · exact hnew.le.trans (hlow x hx)
      · rw [List.getLast?_cons, hend, List.getLast?_cons (a := last)]
    · obtain ⟨hsub, hpair, hlow, hend⟩ :=
        @ih s.t (addFloat64 sum s.v) (n + 1) (Nat.succ_pos n) (by omega) hrest
      have hsame : bucketOf origin width s.t = bucketOf origin width last := not_not.mp hb
      rw [hsame] at hsub hpair hlow hend
      refine ⟨hsub.trans (List.sublist_cons_self _ _), hpair, hlow, ?_⟩
      rw [hend, List.getLast?_cons_cons]

/-- A strictly increasing list of numbers between two others is no longer than their distance
allows. -/
theorem length_le_of_pairwise_lt {a b : ℤ} (h : l.Pairwise (· < ·)) (hlow : ∀ x ∈ l, a ≤ x)
    (hhigh : ∀ x ∈ l, x ≤ b) : l.length ≤ (b + 1 - a).toNat := by
  have hnodup : l.Nodup := h.imp fun hlt => ne_of_lt hlt
  rw [← List.toFinset_card_of_nodup hnodup, ← Int.card_Icc]
  refine Finset.card_le_card fun x hx => ?_
  rw [List.mem_toFinset] at hx
  exact Finset.mem_Icc.mpr ⟨hlow x hx, hhigh x hx⟩

/-- **The means**: at times of samples, in order, one more than the buckets at most, and the
newest sample's time is kept. -/
theorem buckets_spec {samples : List Sample} {origin : ℤ} (hwidth : 0 < width)
    (h : (samples.map Sample.t).Pairwise (· < ·)) (hlow : ∀ s ∈ samples, origin ≤ s.t)
    (hhigh : ∀ s ∈ samples, s.t ≤ origin + 144 * width) :
    let means := buckets samples origin (origin + 144 * width)
    (means.map Sample.t).Sublist (samples.map Sample.t) ∧ means.length ≤ 145 ∧
      (means.map Sample.t).getLast? = (samples.map Sample.t).getLast? := by
  rw [buckets]
  split_ifs with hmany
  · have hdiv : (origin + 144 * width - origin).tdiv (sampleBudget : ℕ) = width := by
      have hbudget : ((sampleBudget : ℕ) : ℤ) = 144 := rfl
      rw [hbudget, add_sub_cancel_left]
      exact Int.mul_tdiv_cancel_left _ (by decide)
    cases samples with
    | nil => simp at hmany
    | cons s rest =>
      have hs : origin ≤ s.t := hlow s List.mem_cons_self
      have hnonneg : 0 ≤ bucketOf origin width s.t := by
        rw [bucketOf, Int.tdiv_eq_ediv_of_nonneg (by omega)]
        exact Int.ediv_nonneg (by omega) hwidth.le
      have hstart : bucketLoop origin width (-1) (some 0) 0 zeroTime (s :: rest) =
          bucketLoop origin width (bucketOf origin width s.t) (addFloat64 (some 0) s.v) 1 s.t
            rest := by
        rw [bucketLoop, ← bucketOf, if_pos (by omega)]
        rfl
      dsimp only
      rw [hdiv, if_neg (by omega), hstart]
      obtain ⟨hsub, hpair, hfirst, hend⟩ := bucketLoop_spec hwidth Nat.one_pos hs h
      refine ⟨hsub, ?_, hend⟩
      have hlength := length_le_of_pairwise_lt (a := 0) (b := 144) hpair ?_ ?_
      · simpa using hlength
      · intro b hb
        obtain ⟨x, hx, rfl⟩ := List.mem_map.mp hb
        exact hnonneg.trans (hfirst x hx)
      · intro b hb
        obtain ⟨x, hx, rfl⟩ := List.mem_map.mp hb
        have hmem : x.t ∈ (s :: rest).map Sample.t := hsub.subset (List.mem_map_of_mem hx)
        obtain ⟨y, hy, hxy⟩ := List.mem_map.mp hmem
        have hx' : origin ≤ x.t ∧ x.t ≤ origin + 144 * width := by
          rw [← hxy]
          exact ⟨hlow y hy, hhigh y hy⟩
        rw [bucketOf, Int.tdiv_eq_ediv_of_nonneg (by omega)]
        have hle : (x.t - origin) / width ≤ 144 * width / width :=
          Int.ediv_le_ediv hwidth (by omega)
        rwa [Int.mul_ediv_cancel _ hwidth.ne'] at hle
  · refine ⟨List.Sublist.refl _, ?_, rfl⟩
    have hbudget : sampleBudget = 144 := rfl
    omega

/-- **Fewer than half of a list exceeds its median.** -/
theorem countP_median_le (d : List ℤ) (hd : d ≠ []) :
    d.countP (fun x => decide ((d.insertionSort (· ≤ ·))[d.length / 2]?.getD 0 < x)) ≤
      d.length - d.length / 2 - 1 := by
  have hperm : (d.insertionSort (· ≤ ·)).Perm d := List.perm_insertionSort _ d
  have hsorted : (d.insertionSort (· ≤ ·)).Pairwise (· ≤ ·) := List.pairwise_insertionSort _ d
  rw [← hperm.countP_eq, ← hperm.length_eq]
  have hlen : 0 < (d.insertionSort (· ≤ ·)).length := by
    rw [hperm.length_eq]
    exact List.length_pos_iff.mpr hd
  generalize d.insertionSort (· ≤ ·) = l at hsorted hlen ⊢
  have hk : l.length / 2 < l.length := by omega
  rw [List.getElem?_eq_getElem hk, Option.getD_some]
  -- what stands up to the median in the sorted list does not exceed it
  have hzero : (l.take (l.length / 2 + 1)).countP (fun x => decide (l[l.length / 2] < x)) = 0 := by
    rw [List.countP_eq_zero]
    intro x hx
    obtain ⟨i, hi, rfl⟩ := List.getElem_of_mem hx
    rw [List.length_take, lt_inf_iff] at hi
    rw [List.getElem_take, decide_eq_true_eq, not_lt]
    rcases Nat.lt_or_ge i (l.length / 2) with hlt | hge
    · exact List.pairwise_iff_getElem.mp hsorted i (l.length / 2) hi.2 hk hlt
    · have hi' : i = l.length / 2 := by omega
      simp [hi']
  calc l.countP (fun x => decide (l[l.length / 2] < x))
      = (l.take (l.length / 2 + 1) ++ l.drop (l.length / 2 + 1)).countP
          (fun x => decide (l[l.length / 2] < x)) := by rw [List.take_append_drop]
    _ = (l.drop (l.length / 2 + 1)).countP (fun x => decide (l[l.length / 2] < x)) := by
        rw [List.countP_append, hzero, Nat.zero_add]
    _ ≤ (l.drop (l.length / 2 + 1)).length := List.countP_le_length
    _ = l.length - l.length / 2 - 1 := by
        rw [List.length_drop]
        omega

/-! ## Marks -/

/-- A point with its instant in place of its text. -/
abbrev Entry := ℤ × Option (Option ℚ)

def Entry.point (e : Entry) : Point := ⟨formatTime e.1, e.2⟩

variable {e : Entry} {entries : List Entry}

/-- The mark of a gap, where there is room for all. -/
def gapEntry (gap : ℤ) (prev : Option ℤ) (s : Sample) : List Entry :=
  match prev with
  | none => []
  | some p => if 0 < gap ∧ gap < s.t - p then [(p + (s.t - p).tdiv 2, none)] else []

/-- The points of samples with all marks. -/
def spread (gap : ℤ) : Option ℤ → List Sample → List Entry
  | _, [] => []
  | prev, s :: rest => gapEntry gap prev s ++ (s.t, some s.v) :: spread gap (some s.t) rest

/-- **If there is room, nothing is cut off.** -/
theorem pointLoop_eq {points : List Point} {samples : List Sample}
    (h : points.length + (spread gap prev samples).length < maxHistoryPoints) :
    pointLoop gap prev points samples = points ++ (spread gap prev samples).map Entry.point := by
  induction samples generalizing prev points with
  | nil => simp [pointLoop, spread]
  | cons s rest ih =>
    rw [spread, List.length_append, List.length_cons] at h
    have hmark : gapMark gap prev s points = (gapEntry gap prev s).map Entry.point := by
      unfold gapMark gapEntry
      cases prev with
      | none => rfl
      | some p =>
        dsimp only
        have hroom : points.length < maxHistoryPoints - 1 := by omega
        by_cases hgap : 0 < gap ∧ gap < s.t - p
        · rw [if_pos ⟨hgap.1, hgap.2, hroom⟩, if_pos hgap]
          rfl
        · rw [if_neg (fun hall => hgap ⟨hall.1, hall.2.1⟩), if_neg hgap]
          rfl
    rw [pointLoop, hmark, if_neg, ih]
    · simp [spread, Entry.point]
    · simp only [List.length_append, List.length_map, List.length_singleton]
      omega
    · simp only [List.length_append, List.length_map]
      omega

def spacings (samples : List Sample) : List ℤ :=
  (samples.zip samples.tail).map fun p => p.2.t - p.1.t

theorem spacings_cons_cons (s s' : Sample) (rest : List Sample) :
    spacings (s :: s' :: rest) = (s'.t - s.t) :: spacings (s' :: rest) := rfl

theorem length_spread_le (s : Sample) (rest : List Sample) :
    (spread gap (some s.t) rest).length ≤
      rest.length + (spacings (s :: rest)).countP (fun x => decide (0 < gap ∧ gap < x)) := by
  induction rest generalizing s with
  | nil => simp [spread]
  | cons s' rest ih =>
    have hrest := ih s'
    rw [spread, spacings_cons_cons, List.countP_cons, gapEntry]
    simp only [List.length_append, List.length_cons]
    by_cases hgap : 0 < gap ∧ gap < s'.t - s.t
    · rw [if_pos hgap, if_pos (decide_eq_true hgap), List.length_singleton]
      omega
    · rw [if_neg hgap, if_neg (by simpa using hgap), List.length_nil]
      omega

theorem length_spacings (samples : List Sample) :
    (spacings samples).length = samples.length - 1 := by
  rw [spacings, List.length_map, List.length_zip, List.length_tail]
  omega

/-- **There is room for all marks.** -/
theorem length_spread_lt {means : List Sample} (h : means.length ≤ 145) :
    (spread (medianSpacing means * gapFactor) none means).length < maxHistoryPoints := by
  have hmax : maxHistoryPoints = 288 := rfl
  cases means with
  | nil => simp [spread, hmax]
  | cons s rest =>
    rw [spread, gapEntry, List.nil_append, List.length_cons]
    have hspread := @length_spread_le (medianSpacing (s :: rest) * gapFactor) s rest
    have hcount : (spacings (s :: rest)).countP (fun x =>
        decide (0 < medianSpacing (s :: rest) * gapFactor ∧
          medianSpacing (s :: rest) * gapFactor < x)) ≤ 71 := by
      by_cases hfew : (s :: rest).length < 3
      · have hzero : medianSpacing (s :: rest) = 0 := by rw [medianSpacing, if_pos hfew]
        simp [hzero]
      · have hlen := length_spacings (s :: rest)
        have hne : spacings (s :: rest) ≠ [] := by
          rw [← List.length_pos_iff, hlen]
          omega
        have hmedian : medianSpacing (s :: rest) =
            ((spacings (s :: rest)).insertionSort
              (· ≤ ·))[(spacings (s :: rest)).length / 2]?.getD 0 := by
          rw [medianSpacing, if_neg hfew]
          rfl
        have hgap : gapFactor = 3 := rfl
        refine (List.countP_mono_left fun x _ hx => ?_).trans
          ((countP_median_le _ hne).trans (by omega))
        rw [decide_eq_true_eq, ← hmedian]
        simp only [decide_eq_true_eq, hgap] at hx
        omega
    simp only [List.length_cons] at h
    omega

/-! ## Order -/

theorem spread_sorted {p : ℤ} {samples : List Sample}
    (h : (p :: samples.map Sample.t).Pairwise (· < ·)) :
    (p :: (spread gap (some p) samples).map Prod.fst).Pairwise (· < ·) := by
  induction samples generalizing p with
  | nil => simp [spread]
  | cons s rest ih =>
    rw [List.map_cons] at h
    obtain ⟨hfirst, hrest⟩ := List.pairwise_cons.mp h
    have hlt : p < s.t := hfirst s.t List.mem_cons_self
    have htail := ih hrest
    have hplain : (p :: s.t :: (spread gap (some s.t) rest).map Prod.fst).Pairwise (· < ·) := by
      refine List.pairwise_cons.mpr ⟨fun x hx => ?_, htail⟩
      rcases List.mem_cons.mp hx with rfl | hx
      · exact hlt
      · exact hlt.trans ((List.pairwise_cons.mp htail).1 x hx)
    rw [spread, gapEntry]
    split_ifs with hgap
    · -- half of a gap is less than the gap, and not nothing
      have hmid : p < p + (s.t - p).tdiv 2 ∧ p + (s.t - p).tdiv 2 < s.t := by
        rw [Int.tdiv_eq_ediv_of_nonneg (by omega)]
        omega
      obtain ⟨hplainFirst, hplainRest⟩ := List.pairwise_cons.mp hplain
      simp only [List.singleton_append, List.map_cons]
      refine List.pairwise_cons.mpr ⟨fun x hx => ?_, List.pairwise_cons.mpr
        ⟨fun x hx => ?_, hplainRest⟩⟩
      · rcases List.mem_cons.mp hx with rfl | hx
        · exact hmid.1
        · exact hplainFirst x hx
      · rcases List.mem_cons.mp hx with rfl | hx
        · exact hmid.2
        · exact hmid.2.trans ((List.pairwise_cons.mp hplainRest).1 x hx)
    · exact hplain

theorem mem_of_mem_spread {samples : List Sample} (he : e ∈ spread gap prev samples)
    (hv : e.2 ≠ none) : e.1 ∈ samples.map Sample.t := by
  induction samples generalizing prev with
  | nil => cases he
  | cons s rest ih =>
    rw [spread, List.mem_append, List.mem_cons] at he
    rw [List.map_cons]
    rcases he with he | rfl | he
    · cases prev with
      | none => cases he
      | some p =>
        rw [gapEntry] at he
        split_ifs at he
        · rw [List.mem_singleton] at he
          rw [he] at hv
          exact absurd rfl hv
        · cases he
    · exact List.mem_cons_self
    · exact List.mem_cons_of_mem _ (ih he)

theorem getLast?_spread (gap : ℤ) (prev : Option ℤ) (samples : List Sample) :
    (spread gap prev samples).getLast? = samples.getLast?.map fun s => (s.t, some s.v) := by
  induction samples generalizing prev with
  | nil => rfl
  | cons s rest ih =>
    rw [spread, List.getLast?_append_cons, List.getLast?_cons, ih, List.getLast?_cons]
    cases rest.getLast? <;> rfl

/-- Every mark stands between two values. -/
def Bridged (entries : List Entry) : Prop :=
  ∀ l e r, entries = l ++ e :: r → e.2 = none →
    (∃ l' a, l = l' ++ [a] ∧ a.2 ≠ none) ∧ ∃ b r', r = b :: r' ∧ b.2 ≠ none

theorem Bridged.cons_value (he : e.2 ≠ none) (h : Bridged entries) : Bridged (e :: entries) := by
  intro l x r hsplit hx
  cases l with
  | nil =>
    cases hsplit
    exact absurd hx he
  | cons y l =>
    obtain ⟨rfl, hrest⟩ := List.cons.inj hsplit
    obtain ⟨⟨l', a, rfl, ha⟩, hright⟩ := h l x r hrest hx
    exact ⟨⟨e :: l', a, rfl, ha⟩, hright⟩

theorem Bridged.cons_mark {m v : Entry} (he : e.2 ≠ none) (hv : v.2 ≠ none)
    (h : Bridged (v :: entries)) : Bridged (e :: m :: v :: entries) := by
  intro l x r hsplit hx
  match l with
  | [] =>
    cases hsplit
    exact absurd hx he
  | [y] =>
    cases hsplit
    exact ⟨⟨[], e, rfl, he⟩, v, entries, rfl, hv⟩
  | y :: z :: l =>
    obtain ⟨rfl, hsecond⟩ := List.cons.inj hsplit
    obtain ⟨rfl, hrest⟩ := List.cons.inj hsecond
    obtain ⟨⟨l', a, rfl, ha⟩, hright⟩ := h l x r hrest hx
    exact ⟨⟨e :: m :: l', a, rfl, ha⟩, hright⟩

theorem bridged_spread (gap : ℤ) (s : Sample) (rest : List Sample) :
    Bridged ((s.t, some s.v) :: spread gap (some s.t) rest) := by
  induction rest generalizing s with
  | nil =>
    refine Bridged.cons_value (by simp) fun l x r hsplit => ?_
    simp [spread] at hsplit
  | cons s' rest ih =>
    rw [spread, gapEntry]
    split_ifs
    · exact Bridged.cons_mark (by simp) (by simp) (ih s')
    · exact Bridged.cons_value (by simp) (ih s')

/-- **What is said of the points of a window**: they fit, they are in order, values stand at times
of samples of the window, every mark stands between two values, and the newest sample of the
window is the last point. -/
structure Timeline (samples : List Sample) (origin upTo : ℤ) (entries : List Entry) : Prop where
  fits : entries.length ≤ maxHistoryPoints
  increasing : (entries.map Prod.fst).Pairwise (· < ·)
  recorded : ∀ e ∈ entries, e.2 ≠ none →
    ∃ s ∈ samples, origin ≤ s.t ∧ s.t ≤ upTo ∧ s.t = e.1
  bridged : Bridged entries
  newest : ∀ s ∈ samples, origin ≤ s.t → s.t ≤ upTo →
    (∀ s' ∈ samples, origin ≤ s'.t → s'.t ≤ upTo → s'.t ≤ s.t) →
    ∃ v, entries.getLast? = some (s.t, some v)

theorem getLast?_eq_of_forall_le {m : ℤ} (h : l.Pairwise (· < ·)) (hm : m ∈ l)
    (hle : ∀ x ∈ l, x ≤ m) : l.getLast? = some m := by
  obtain ⟨l₁, l₂, rfl⟩ := List.append_of_mem hm
  have hempty : l₂ = [] := by
    rw [List.eq_nil_iff_forall_not_mem]
    intro x hx
    have hlt := (List.pairwise_cons.mp (List.pairwise_append.mp h).2.1).1 x hx
    exact absurd (hle x (by simp [hx])) (not_le.mpr hlt)
  rw [hempty]
  simp

/-- **The points of a window of 144 equal buckets.** -/
theorem timeline_downsample (samples : List Sample) {origin : ℤ} (hwidth : 0 < width) :
    ∃ entries, downsample samples origin (origin + 144 * width) = entries.map Entry.point ∧
      Timeline samples origin (origin + 144 * width) entries := by
  obtain ⟨hsorted, hsub, hall⟩ :=
    @dedup_sorted_spec samples origin (origin + 144 * width)
  rw [downsample]
  generalize dedup ((samples.filter fun s => decide (origin ≤ s.t ∧ s.t ≤
    origin + 144 * width)).insertionSort fun x y => x.t ≤ y.t) = xs at hsorted hsub hall ⊢
  have htimes : (xs.map Sample.t).Pairwise (· < ·) := List.pairwise_map.mpr hsorted
  obtain ⟨hmeans, hlength, hlast⟩ := buckets_spec hwidth htimes
    (fun s hs => (hsub s hs).2.1) fun s hs => (hsub s hs).2.2
  generalize buckets xs origin (origin + 144 * width) = means at hmeans hlength hlast ⊢
  have hroom := length_spread_lt hlength
  generalize medianSpacing means * gapFactor = gap at hroom ⊢
  refine ⟨spread gap none means, ?_, ?_⟩
  · rw [pointLoop_eq (by simpa using hroom), List.nil_append]
  · have hincreasing := htimes.sublist hmeans
    refine ⟨hroom.le, ?_, fun e he hv => ?_, ?_, fun s hs hlow hhigh hnewest => ?_⟩
    · cases means with
      | nil => simp [spread]
      | cons s rest => simpa [spread, gapEntry] using spread_sorted hincreasing
    · obtain ⟨x, hx, hxe⟩ := List.mem_map.mp (hmeans.subset (mem_of_mem_spread he hv))
      obtain ⟨hmem, hlow, hhigh⟩ := hsub x hx
      exact ⟨x, hmem, hlow, hhigh, hxe⟩
    · cases means with
      | nil =>
        intro l e r hsplit
        simp [spread] at hsplit
      | cons s rest => exact bridged_spread gap s rest
    · obtain ⟨x, hx, hxs⟩ := hall s hs hlow hhigh
      have hgreatest : (xs.map Sample.t).getLast? = some s.t := by
        refine getLast?_eq_of_forall_le htimes (hxs ▸ List.mem_map_of_mem hx) fun t ht => ?_
        obtain ⟨y, hy, rfl⟩ := List.mem_map.mp ht
        obtain ⟨hmem, hylow, hyhigh⟩ := hsub y hy
        exact hnewest y hmem hylow hyhigh
      rw [getLast?_spread]
      rw [hgreatest, List.getLast?_map] at hlast
      obtain ⟨y, hy, hyt⟩ := Option.map_eq_some_iff.mp hlast
      exact ⟨y.v, by rw [hy, Option.map_some, hyt]⟩

end Veduta.State
