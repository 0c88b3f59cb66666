import Mathlib.Algebra.Order.Group.Int
import Mathlib.Data.List.Sort
import Mathlib.Order.Interval.Set.Defs

/-!
# Sliding windows

The times at which something happened, in the order in which it happened.  A new time is added
only if fewer than `p` of the earlier ones lie within the last `h`; then no window of that
width ever holds more than `p` of them, wherever it ends.  Times that keep the distance `h` are
alone in the window that each of them opens.
-/

namespace Veduta.Lib

/-- How many of the times lie in the window of width `h` that ends at `T`, both ends included. -/
def inWindow (h T : ℤ) (times : List ℤ) : ℕ := times.countP fun x => T - h ≤ x ∧ x ≤ T

variable {h x : ℤ} {times : List ℤ}

theorem inWindow_concat_le {p : ℕ} (hbound : ∀ T, inWindow h T times ≤ p)
    (hroom : times.countP (fun y => x - h ≤ y) < p) (T : ℤ) : inWindow h T (times ++ [x]) ≤ p := by
  rw [inWindow, List.countP_append]
  by_cases hx : T - h ≤ x ∧ x ≤ T
  · have hmono : (times.countP fun y => T - h ≤ y ∧ y ≤ T) ≤
        times.countP fun y => x - h ≤ y := by
      refine List.countP_mono_left fun y _ hy => ?_
      simp only [decide_eq_true_eq] at hy ⊢
      omega
    have hone : List.countP (fun y => decide (T - h ≤ y ∧ y ≤ T)) [x] ≤ 1 :=
      List.countP_le_length
    omega
  · have hnone : List.countP (fun y => decide (T - h ≤ y ∧ y ≤ T)) [x] = 0 := by
      refine List.countP_eq_zero.mpr fun y hy => ?_
      rw [List.mem_singleton.mp hy, decide_eq_true_eq]
      exact hx
    have := hbound T
    rw [inWindow] at this
    omega

/-- Times at a distance of at least `h`, in order. -/
def Spaced (h : ℤ) (times : List ℤ) : Prop := times.Pairwise fun x y => x + h ≤ y

theorem Spaced.concat (hpos : 0 < h) (hs : Spaced h times)
    (hx : ∀ z, times.getLast? = some z → z + h ≤ x) : Spaced h (times ++ [x]) := by
  refine List.pairwise_append.mpr ⟨hs, List.pairwise_singleton _ _, fun y hy x' hx' => ?_⟩
  rw [List.mem_singleton.mp hx']
  cases hlast : times.getLast? with
  | none =>
    rw [List.getLast?_eq_none_iff.mp hlast] at hy
    cases hy
  | some z =>
    have hz := hx z hlast
    obtain ⟨init, rfl⟩ := List.getLast?_eq_some_iff.mp hlast
    rcases List.mem_append.mp hy with hinit | hend
    · have := (List.pairwise_append.mp hs).2.2 y hinit z (List.mem_singleton.mpr rfl)
      omega
    · rw [List.mem_singleton.mp hend]
      exact hz

theorem countP_of_spaced (hpos : 0 < h) (hs : Spaced h times) {a : ℤ} (ha : a ∈ times) :
    (times.countP fun x => a ≤ x ∧ x < a + h) = 1 := by
  induction times with
  | nil => cases ha
  | cons y times ih =>
    obtain ⟨hy, hs⟩ := List.pairwise_cons.mp hs
    rw [List.countP_cons]
    rcases List.mem_cons.mp ha with rfl | ha
    · have hnone : (times.countP fun x => a ≤ x ∧ x < a + h) = 0 := by
        rw [List.countP_eq_zero]
        intro x hx
        have := hy x hx
        simp only [decide_eq_true_eq]
        omega
      rw [hnone]
      simp [hpos]
    · have hfar := hy a ha
      rw [ih hs ha, if_neg]
      simp only [decide_eq_true_eq]
      omega

end Veduta.Lib
