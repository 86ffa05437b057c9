import Mathlib

/-!
# Runs of characters

A list cut where its first run of elements of a class ends. `takeWhile` and `dropWhile` compute the cut, and `span_unique` says that there
is no other.
-/

namespace Vmem

variable {α : Type} {p q : α → Bool} {a r : List α}

/-- No element of the class at the start. -/
def Stops (p : α → Bool) (r : List α) : Prop := ∀ c : α, r.head? = some c → p c = false

/-- The end stops everything. -/
theorem stops_nil : Stops p [] := fun _ h => nomatch h

/-- A character that is not of the class stops it. -/
theorem stops_cons {c : α} {cs : List α} (h : p c = false) : Stops p (c :: cs) := by
  intro x hx
  cases hx
  exact h

/-- Behind elements of another class a run has stopped. -/
theorem stops_append {w : List α} (hw : ∀ c ∈ w, q c = true) (hpq : ∀ c, q c = true → p c = false) (hr : Stops p r) : Stops p (w ++ r) := by
  cases w with
  | nil => exact hr
  | cons c cs => exact stops_cons (hpq c (hw c List.mem_cons_self))

/-- What is left behind a run stops it. -/
theorem stops_dropWhile (p : α → Bool) (t : List α) : Stops p (t.dropWhile p) := by
  induction t with
  | nil => exact stops_nil
  | cons c cs ih =>
    cases hc : p c with
    | true =>
      rw [List.dropWhile_cons_of_pos hc]
      exact ih
    | false =>
      rw [List.dropWhile_cons_of_neg (Bool.eq_false_iff.1 hc)]
      exact stops_cons hc

/-- A run is of its class. -/
theorem mem_takeWhile {t : List α} : ∀ c ∈ t.takeWhile p, p c = true := fun _ h => List.mem_takeWhile_imp h

/-- A run ends where it is stopped. -/
theorem takeWhile_span (ha : ∀ c ∈ a, p c = true) (hr : Stops p r) : (a ++ r).takeWhile p = a := by
  rw [List.takeWhile_append_of_pos ha]
  cases r with
  | nil => exact List.append_nil a
  | cons c cs => rw [List.takeWhile_cons_of_neg (Bool.eq_false_iff.1 (hr c rfl)), List.append_nil]

/-- What is left is what stopped it. -/
theorem dropWhile_span (ha : ∀ c ∈ a, p c = true) (hr : Stops p r) : (a ++ r).dropWhile p = r := by
  rw [List.dropWhile_append_of_pos ha]
  cases r with
  | nil => rfl
  | cons c cs => exact List.dropWhile_cons_of_neg (Bool.eq_false_iff.1 (hr c rfl))

/-- Where a run of elements of a class ends is determined. -/
theorem span_unique {b r' : List α} (h : a ++ r = b ++ r') (ha : ∀ c ∈ a, p c = true) (hr : Stops p r) (hb : ∀ c ∈ b, p c = true)
    (hr' : Stops p r') : a = b ∧ r = r' := by
  have hab : a = b := by rw [← takeWhile_span ha hr, h, takeWhile_span hb hr']
  refine ⟨hab, ?_⟩
  rw [hab] at h
  exact List.append_cancel_left h

/-- A run that is all that the class takes is followed by an element of no class. -/
theorem stops_of_takeWhile (h : (a ++ r).takeWhile p = a) : Stops p r := by
  intro c hc
  cases r with
  | nil => cases hc
  | cons d ds =>
    cases hc
    have ha : ∀ x ∈ a, p x = true := by
      intro x hx
      rw [← h] at hx
      exact List.mem_takeWhile_imp hx
    rw [List.takeWhile_append_of_pos ha, List.takeWhile_cons] at h
    cases hp : p c with
    | false => rfl
    | true =>
      rw [hp] at h
      exact nomatch List.append_cancel_left (h.trans (List.append_nil a).symm)

end Vmem
