import Mathlib.Data.List.Basic
import Veduta.Lib.Transition

/-!
# Readers and writers

A lock that any number of calls hold for reading, or one for writing.  It is not a value of its own:
who holds it is read off the calls, and a call may take it as long as the others allow it.  A real
lock also makes new readers wait for a waiting writer; that only takes runs away.
-/

namespace Veduta.Lib

variable {C : Type} (reading writing : C → Bool)

/-- Nobody writes: a reader may enter. -/
def noWriter (calls : List C) : Bool := calls.all fun c => !writing c

/-- Nobody holds the lock: a writer may enter. -/
def noHolder (calls : List C) : Bool := calls.all fun c => !writing c && !reading c

/-- A call that writes is the only one that holds the lock. -/
def Exclusive (calls : List C) : Prop :=
  ∀ (i j : ℕ) c d, calls[i]? = some c → calls[j]? = some d → i ≠ j → writing c = true →
    writing d = false ∧ reading d = false

variable {reading writing} {calls : List C}
variable {c c' : C} {i : ℕ}

theorem exclusive_nil : Exclusive reading writing ([] : List C) := by
  intro i j c d hc
  simp at hc

theorem of_noWriter (h : noWriter writing calls = true) (hc : calls[i]? = some c) :
    writing c = false := by
  have := List.all_eq_true.mp h c (List.mem_of_getElem? hc)
  simpa using this

theorem of_noHolder (h : noHolder reading writing calls = true) (hc : calls[i]? = some c) :
    writing c = false ∧ reading c = false := by
  have := List.all_eq_true.mp h c (List.mem_of_getElem? hc)
  simpa using this

theorem noWriter_iff : noWriter writing calls = true ↔
    ∀ (i : ℕ) c, calls[i]? = some c → writing c = false := by
  constructor
  · intro h i c hc
    exact of_noWriter h hc
  · intro h
    refine List.all_eq_true.mpr ?_
    intro c hc
    obtain ⟨i, hi⟩ := List.mem_iff_getElem?.mp hc
    simp [h i c hi]

/-- If nobody writes after one call has gone on, nobody else wrote before. -/
theorem noWriter_of_set (hc : calls[i]? = some c) (hw : writing c = false)
    (h : noWriter writing (calls.set i c') = true) : noWriter writing calls = true := by
  rw [noWriter_iff] at h ⊢
  intro j d hd
  by_cases hij : i = j
  · subst hij
    cases hc.symm.trans hd
    exact hw
  · exact h j d (by rw [List.getElem?_set_ne hij]; exact hd)

theorem Exclusive.writing_eq_false (h : Exclusive reading writing calls) {j : ℕ} {d : C}
    (hc : calls[i]? = some c) (hd : calls[j]? = some d) (hij : i ≠ j) (hreads : reading c = true) :
    writing d = false := by
  by_contra hwrites
  have := (h j i d c hd hc hij.symm (by simpa using hwrites)).2
  rw [hreads] at this
  cases this

theorem Exclusive.append (h : Exclusive reading writing calls) (hw : writing c = false)
    (hr : reading c = false) : Exclusive reading writing (calls ++ [c]) := by
  intro i j d e hd he hij hwrites
  rcases getElem?_append_cases hd with hd | rfl
  · rcases getElem?_append_cases he with he | rfl
    · exact h i j d e hd he hij hwrites
    · exact ⟨hw, hr⟩
  · rw [hw] at hwrites
    cases hwrites

theorem Exclusive.set (h : Exclusive reading writing calls) (hc : calls[i]? = some c)
    (hw : writing c' = true → writing c = true ∨ noHolder reading writing calls = true)
    (hr : reading c' = true → reading c = true ∨ noWriter writing calls = true) :
    Exclusive reading writing (calls.set i c') := by
  intro j k d e hd he hjk hwrites
  rcases getElem?_set_cases hd with ⟨rfl, rfl⟩ | ⟨-, hj⟩
  · rcases getElem?_set_cases he with ⟨rfl, -⟩ | ⟨-, he⟩
    · exact absurd rfl hjk
    · rcases hw hwrites with hold | hfree
      · exact h i k c e hc he hjk hold
      · exact of_noHolder hfree he
  · rcases getElem?_set_cases he with ⟨rfl, rfl⟩ | ⟨-, he⟩
    · obtain ⟨hwc, hrc⟩ := h j i d c hj hc hjk hwrites
      constructor
      · by_contra hw'
        rcases hw (by simpa using hw') with hold | hfree
        · rw [hwc] at hold
          cases hold
        · rw [(of_noHolder hfree hj).1] at hwrites
          cases hwrites
      · by_contra hr'
        rcases hr (by simpa using hr') with hold | hfree
        · rw [hrc] at hold
          cases hold
        · rw [of_noWriter hfree hj] at hwrites
          cases hwrites
    · exact h j k d e hj he hjk hwrites

end Veduta.Lib
