/-
# Interleaved systems

A library about systems of several parties that take their steps in any order.  A system is
given by what an event does to the state, or that it cannot happen there.  `Reaches` is the set
of states that can be reached when every event meets a condition; `Reaches.invariant` is the
rule of invariants for it.  A concrete schedule is executed by `run`, and `Meets` says of it that
each of its events meets a condition; `exists_of_not_meets` finds the event that does not.
-/
import Mathlib.Data.List.Basic
import Mathlib.Logic.Function.Basic

namespace Interleave

variable {S E : Type}

/-- The states that can be reached from `s` by events that meet the condition `C` in the state
they find. -/
inductive Reaches (exec : S → E → Option S) (C : S → E → Prop) (s : S) : S → Prop where
  | refl : Reaches exec C s s
  | step {t u : S} {e : E} (h : Reaches exec C s t) (hC : C t e) (hexec : exec t e = some u) :
      Reaches exec C s u

/-- Events without a condition. -/
abbrev Reachable (exec : S → E → Option S) : S → S → Prop := Reaches exec fun _ _ => True

/-- A schedule, from the state `s`. -/
def run (exec : S → E → Option S) : S → List E → Option S
  | s, [] => some s
  | s, e :: es => (exec s e).bind fun t => run exec t es

/-- Every event of a schedule meets the condition in the state it finds. -/
def Meets (exec : S → E → Option S) (C : S → E → Prop) : S → List E → Prop
  | _, [] => True
  | s, e :: es => C s e ∧ ∀ t, exec s e = some t → Meets exec C t es

variable {exec : S → E → Option S} {C : S → E → Prop} {s t : S}

/-- **The rule of invariants.** -/
theorem Reaches.invariant (Inv : S → Prop) (hinit : Inv s)
    (hstep : ∀ t e u, Inv t → C t e → exec t e = some u → Inv u) (h : Reaches exec C s t) :
    Inv t := by
  induction h with
  | refl => exact hinit
  | step _ hC hexec ih => exact hstep _ _ _ ih hC hexec

/-- A schedule that can be carried out ends in a state that can be reached. -/
theorem Reaches.of_run {es : List E} :
    ∀ {t u : S}, Reachable exec s t → run exec t es = some u → Reachable exec s u := by
  induction es with
  | nil =>
      intro t u h hrun
      cases hrun
      exact h
  | cons e es ih =>
      intro t u h hrun
      obtain ⟨v, hexec, hrun⟩ := Option.bind_eq_some_iff.mp hrun
      exact ih (.step h trivial hexec) hrun

/-- What can be checked of the end of a schedule holds of a state that can be reached. -/
theorem exists_reachable_of_run {P : S → Prop} [DecidablePred P] {es : List E}
    (h : (run exec s es).any (fun t => decide (P t)) = true) : ∃ t, Reachable exec s t ∧ P t := by
  obtain ⟨t, hrun, hP⟩ := (Option.any_eq_true _ _).mp h
  exact ⟨t, Reaches.of_run .refl hrun, of_decide_eq_true hP⟩

/-- A schedule whose events meet the condition. -/
theorem Reaches.of_meets {es : List E} :
    ∀ {t u : S}, Reaches exec C s t → Meets exec C t es → run exec t es = some u →
      Reaches exec C s u := by
  induction es with
  | nil =>
      intro t u h _ hrun
      cases hrun
      exact h
  | cons e es ih =>
      intro t u h hmeets hrun
      obtain ⟨v, hexec, hrun⟩ := Option.bind_eq_some_iff.mp hrun
      exact ih (.step h hmeets.1 hexec) (hmeets.2 v hexec) hrun

/-- A schedule one of whose events does not meet the condition: the states before and after it. -/
theorem exists_of_not_meets {es : List E} :
    ∀ {t u : S}, Reachable exec s t → ¬Meets exec C t es → run exec t es = some u →
      ∃ v e w es', Reachable exec s v ∧ ¬C v e ∧ exec v e = some w ∧ run exec w es' = some u := by
  induction es with
  | nil =>
      intro t u _ h _
      exact absurd trivial h
  | cons e es ih =>
      intro t u ht h hrun
      obtain ⟨v, hexec, hrun⟩ := Option.bind_eq_some_iff.mp hrun
      by_cases hC : C t e
      · refine ih (.step ht trivial hexec) (fun hmeets => h ⟨hC, fun v' hexec' => ?_⟩) hrun
        obtain rfl : v = v' := Option.some.inj (hexec.symm.trans hexec')
        exact hmeets
      · exact ⟨t, e, v, es, ht, hC, hexec, hrun⟩

end Interleave
