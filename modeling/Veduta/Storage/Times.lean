import Veduta.Go.TimeOrder

/-!
# Stored times

Package `storage` writes every time column as the text of the instant in the layout
`RFC3339Nano`, in UTC, and compares the columns in SQL, where text is compared byte by byte:
the retry time of a notification when it is claimed, its creation for the cooldown and for the
hourly ceiling, the samples and the events at the end of their retention, and the end of a
session.
-/

namespace Veduta.Storage

open Go

/-- `t.UTC().Format(time.RFC3339Nano)`, the text of a time column. -/
def storedTime (t : ℤ) : Bytes := formatTime t

/-- The operator `<=` of SQL on two time columns. -/
def storedLe (t u : ℤ) : Bool := decide (storedTime t ≤ storedTime u)

/-- An instant of the years 0 to 9999. -/
def FourDigitYear (t : ℤ) : Prop := 0 ≤ t ∧ t < secondsEnd * second

theorem storedLe_iff {t u : ℤ} : storedLe t u = true ↔ formatTime t ≤ formatTime u :=
  decide_eq_true_iff

theorem storedLe_of_lt {t u : ℤ} (ht : 0 ≤ t) (h : t < u) (hu : u < secondsEnd * second) :
    (storedLe t u = true ↔ ¬CutOff t u) ∧ (storedLe u t = true ↔ CutOff t u) := by
  have hswap := swapped_formatTime ht h hu
  rw [storedLe_iff, storedLe_iff]
  by_cases hcut : CutOff t u
  · have hlt := hswap.2 hcut
    exact ⟨iff_of_false (List.not_le.mpr hlt) (not_not.mpr hcut),
      iff_of_true (List.le_of_lt hlt) hcut⟩
  · have hlt := hswap.1 hcut
    exact ⟨iff_of_true (List.le_of_lt hlt) hcut, iff_of_false (List.not_le.mpr hlt) hcut⟩

/-- **The order of stored times.**  Two instants are compared as text like the instants they
are, unless they differ and one is the other with the last digits of its fraction of a second
set to zero. -/
theorem storedTime_le_iff_le {t u : ℤ} (ht : FourDigitYear t) (hu : FourDigitYear u) :
    (storedLe t u ↔ t ≤ u) ↔ (CutOff t u ∨ CutOff u t → t = u) := by
  rcases lt_trichotomy t u with hlt | rfl | hgt
  · have hnot : ¬CutOff u t := fun hcut => absurd hcut.le (not_le.mpr hlt)
    rw [(storedLe_of_lt ht.1 hlt hu.2).1]
    simp [hlt.le, hlt.ne, hnot]
  · have hle : storedLe t t = true := decide_eq_true (List.le_refl _)
    simp [hle]
  · have hnot : ¬CutOff t u := fun hcut => absurd hcut.le (not_le.mpr hgt)
    rw [(storedLe_of_lt hu.1 hgt ht.2).2]
    simp [not_le.mpr hgt, hgt.ne', hnot]

/-- The start of the year 2026. -/
def newYear : ℤ := daysBefore 2026 1 1 * (24 * hour)

theorem storedTime_le_iff_le_newYear :
    (storedLe newYear (newYear + second) ↔ newYear ≤ newYear + second) ↔
      (CutOff newYear (newYear + second) ∨ CutOff (newYear + second) newYear →
        newYear = newYear + second) := by
  refine storedTime_le_iff_le ⟨by decide, ?_⟩ ⟨by decide, ?_⟩
  · decide +kernel
  · decide +kernel

/-- Half a second after a full second the text of the full second comes last. -/
theorem newYear_after_half_second :
    storedTime newYear = ascii "2026-01-01T00:00:00Z" ∧
      storedTime (newYear + 500000000) = ascii "2026-01-01T00:00:00.5Z" ∧
      storedLe newYear (newYear + 500000000) = false ∧ newYear ≤ newYear + 500000000 := by
  decide +kernel

end Veduta.Storage
