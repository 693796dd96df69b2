/-
# First match under lazily obtained knowledge

A library about scanning a list for the first element that passes a test, where the
test may look at a fact that is expensive to obtain.  Some elements need the fact;
the scan obtains it when it reaches the first of them, if it does not have it already,
and keeps it for the elements after that.

`scan` is the loop, together with the number of times it obtained the fact.
`knownAt` says what is known at each position, `exists_of_scan_eq_some`,
`scan_eq_none_iff` and `scan_count` describe the loop by positions.
-/
import Mathlib.Data.List.Basic

namespace LazyScan

variable {α K : Type}

section Scan

variable (needs : α → Bool) (test : Option K → α → Bool) (fact : K)

/-- The knowledge with which an element is tested. -/
def obtain? (known : Option K) (a : α) : Option K :=
  known.or (if needs a then some fact else none)

/-- The loop: the first element that passes, and how often the fact was obtained. -/
def scan : Option K → List α → Option α × ℕ
  | _, [] => (none, 0)
  | known, a :: l =>
    let count := if known.isNone && needs a then 1 else 0
    if test (obtain? needs fact known a) a then (some a, count)
    else ((scan (obtain? needs fact known a) l).1, count + (scan (obtain? needs fact known a) l).2)

/-- What is known at position `i`: what was known at the start, or else the fact if some
element up to there needs it. -/
def knownAt (known : Option K) (l : List α) (i : ℕ) : Option K :=
  known.or (if (l.take (i + 1)).any needs then some fact else none)

/-- The element at position `i` passes under what is known there. -/
def PassesAt (known : Option K) (l : List α) (i : ℕ) : Prop :=
  ∃ a, l[i]? = some a ∧ test (knownAt needs fact known l i) a = true

end Scan

variable {needs : α → Bool} {test : Option K → α → Bool} {fact : K}

theorem knownAt_cons_zero (known : Option K) (a : α) (l : List α) :
    knownAt needs fact known (a :: l) 0 = obtain? needs fact known a := by
  simp [knownAt, obtain?]

theorem knownAt_cons_succ (known : Option K) (a : α) (l : List α) (i : ℕ) :
    knownAt needs fact known (a :: l) (i + 1)
      = knownAt needs fact (obtain? needs fact known a) l i := by
  unfold knownAt obtain?
  rw [List.take_succ_cons, List.any_cons, Option.or_assoc]
  cases needs a <;> simp

theorem passesAt_cons_zero {known : Option K} {a : α} {l : List α} :
    PassesAt needs test fact known (a :: l) 0 ↔ test (obtain? needs fact known a) a = true := by
  unfold PassesAt
  rw [knownAt_cons_zero]
  simp

theorem passesAt_cons_succ {known : Option K} {a : α} {l : List α} {i : ℕ} :
    PassesAt needs test fact known (a :: l) (i + 1) ↔
      PassesAt needs test fact (obtain? needs fact known a) l i := by
  unfold PassesAt
  rw [knownAt_cons_succ]
  simp

theorem not_passesAt_nil {known : Option K} {i : ℕ} :
    ¬PassesAt needs test fact known [] i := by
  rintro ⟨a, h, -⟩
  simp at h

/-- **The loop finds nothing** exactly when no position passes. -/
theorem scan_eq_none_iff :
    ∀ {l : List α} {known : Option K}, (scan needs test fact known l).1 = none ↔
      ∀ i, ¬PassesAt needs test fact known l i := by
  intro l
  induction l with
  | nil => intro known; simp [scan, not_passesAt_nil]
  | cons a l ih =>
      intro known
      rw [scan]
      by_cases ha : test (obtain? needs fact known a) a = true
      · simp only [ha, if_true, reduceCtorEq, false_iff, not_forall, not_not]
        exact ⟨0, passesAt_cons_zero.mpr ha⟩
      · rw [if_neg ha]
        -- an element that fails shifts every position by one
        simp only [ih]
        constructor
        · intro h i
          cases i with
          | zero => rw [passesAt_cons_zero]; exact ha
          | succ i => rw [passesAt_cons_succ]; exact h i
        · intro h i
          rw [← passesAt_cons_succ]
          exact h (i + 1)

/-- **The loop finds the first position that passes.** -/
theorem exists_of_scan_eq_some :
    ∀ {l : List α} {known : Option K} {b : α}, (scan needs test fact known l).1 = some b →
      ∃ i, l[i]? = some b ∧ PassesAt needs test fact known l i
        ∧ ∀ j < i, ¬PassesAt needs test fact known l j := by
  intro l
  induction l with
  | nil => intro known b h; simp [scan] at h
  | cons a l ih =>
      intro known b h
      rw [scan] at h
      by_cases ha : test (obtain? needs fact known a) a = true
      · simp only [ha, if_true, Option.some.injEq] at h
        subst h
        exact ⟨0, rfl, passesAt_cons_zero.mpr ha, by omega⟩
      · rw [if_neg ha] at h
        obtain ⟨i, hi, hpass, hbefore⟩ := ih h
        refine ⟨i + 1, by simpa using hi, passesAt_cons_succ.mpr hpass, ?_⟩
        intro j hj
        cases j with
        | zero => rw [passesAt_cons_zero]; exact ha
        | succ j => rw [passesAt_cons_succ]; exact hbefore j (by omega)

/-- A position that needs the fact is reached with no earlier match. -/
def NeededAt (needs : α → Bool) (test : Option K → α → Bool) (fact : K) (known : Option K)
    (l : List α) : Prop :=
  ∃ i a, l[i]? = some a ∧ needs a = true ∧ ∀ j < i, ¬PassesAt needs test fact known l j

/-- With the fact at hand it is not obtained again. -/
theorem scan_count_of_known :
    ∀ {l : List α} {k : K}, (scan needs test fact (some k) l).2 = 0 := by
  intro l
  induction l with
  | nil => intro k; rfl
  | cons a l ih =>
      intro k
      rw [scan]
      split
      · rfl
      · exact congrArg (0 + ·) ih

/-- The fact is needed at the head, or later if the head does not match. -/
theorem neededAt_cons_iff {a : α} {l : List α} :
    NeededAt needs test fact none (a :: l) ↔
      needs a = true ∨ ¬test none a = true ∧ NeededAt needs test fact none l := by
  by_cases hneeds : needs a = true
  · exact ⟨fun _ => Or.inl hneeds, fun _ => ⟨0, a, rfl, hneeds, by omega⟩⟩
  have hknown : obtain? needs fact none a = none := by simp [obtain?, hneeds]
  constructor
  · rintro ⟨i, b, hb, hbneeds, hbefore⟩
    cases i with
    | zero =>
        obtain rfl : a = b := by simpa using hb
        exact Or.inl hbneeds
    | succ i =>
        refine Or.inr ⟨?_, i, b, by simpa using hb, hbneeds, fun j hj => ?_⟩
        · have h := hbefore 0 (by omega)
          rwa [passesAt_cons_zero, hknown] at h
        · have h := hbefore (j + 1) (by omega)
          rwa [passesAt_cons_succ, hknown] at h
  · rintro (h | ⟨ha, i, b, hb, hbneeds, hbefore⟩)
    · exact absurd h hneeds
    · refine ⟨i + 1, b, by simpa using hb, hbneeds, fun j hj => ?_⟩
      cases j with
      | zero => rwa [passesAt_cons_zero, hknown]
      | succ j =>
          rw [passesAt_cons_succ, hknown]
          exact hbefore j (by omega)

open Classical in
/-- **The fact is obtained at most once**, and exactly when it is needed. -/
theorem scan_count :
    ∀ {l : List α}, (scan needs test fact none l).2
      = if NeededAt needs test fact none l then 1 else 0 := by
  intro l
  induction l with
  | nil => simp [scan, NeededAt]
  | cons a l ih =>
      rw [scan]
      by_cases hneeds : needs a = true
      · -- the head needs the fact: it is obtained here and known from here on
        have hknown : obtain? needs fact none a = some fact := by simp [obtain?, hneeds]
        rw [if_pos (neededAt_cons_iff.mpr (Or.inl hneeds)), hknown]
        split
        · simp [hneeds]
        · simp [hneeds, scan_count_of_known]
      · have hknown : obtain? needs fact none a = none := by simp [obtain?, hneeds]
        rw [hknown]
        by_cases ha : test none a = true
        · -- a match ends the scan before anything is needed
          rw [if_pos ha]
          simp [neededAt_cons_iff, hneeds, ha]
        · rw [if_neg ha, ih]
          simp [neededAt_cons_iff, hneeds, ha]

end LazyScan
