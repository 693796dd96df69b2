/-
# Runs of a reactive system

A library about systems that take one input after another: `step` answers an input
and moves on, until an answer after which the system takes no further input.
`events` is the log of a run, one entry for each input taken, with the state it
found and the state it left.

`events_invariant` is the invariant rule: what holds at the start and is preserved
by every step whose input meets a condition holds at both ends of every event of a
run in which all of them do.  `events_forall_iff` turns a statement about every event
into a statement about each event given the invariant.
-/
import Mathlib.Data.List.Basic

namespace EventLog

variable {S I O : Type}

/-- One input taken by the system. -/
structure Event (S I O : Type) where
  before : S
  input : I
  output : O
  after : S

/-- The log of the run from `s` on the inputs `is`. -/
def events (step : S → I → O × S) (final : O → Bool) : S → List I → List (Event S I O)
  | _, [] => []
  | s, i :: is =>
    ⟨s, i, (step s i).1, (step s i).2⟩ ::
      if final (step s i).1 then [] else events step final (step s i).2 is

variable {step : S → I → O × S} {final : O → Bool}

/-- Every event of a run is a step. -/
theorem step_of_mem_events {e : Event S I O} :
    ∀ {is : List I} {s : S}, e ∈ events step final s is →
      step e.before e.input = (e.output, e.after) := by
  intro is
  induction is with
  | nil => intro s h; simp [events] at h
  | cons i is ih =>
      intro s h
      rw [events, List.mem_cons] at h
      rcases h with rfl | h
      · rfl
      · split at h
        · simp at h
        · exact ih h

/-- **The invariant rule.**  The condition `C` may speak about the state the input
finds. -/
theorem events_invariant (Inv : S → Prop) (C : S → I → Prop)
    (hstep : ∀ s i, Inv s → C s i → Inv (step s i).2) :
    ∀ {is : List I} {s : S}, Inv s → (∀ e ∈ events step final s is, C e.before e.input) →
      ∀ e ∈ events step final s is, Inv e.before ∧ Inv e.after := by
  intro is
  induction is with
  | nil => intro s _ _ e he; simp [events] at he
  | cons i is ih =>
      intro s hs hC e he
      rw [events] at hC he
      have hnext : Inv (step s i).2 := hstep s i hs (hC _ List.mem_cons_self)
      rcases List.mem_cons.mp he with rfl | he
      · exact ⟨hs, hnext⟩
      · split at he
        · simp at he
        · rename_i hf
          refine ih hnext (fun e' he' => hC e' ?_) e he
          rw [if_neg hf]
          exact List.mem_cons_of_mem _ he'

/-- **First failure.**  If, as long as the invariant holds, a step keeps the property
`P` exactly when it meets the condition `C`, and the condition preserves the
invariant, then a whole run keeps `P` exactly when all its steps meet `C`. -/
theorem events_forall_iff (Inv : S → Prop) (C : S → I → Prop) (P : Event S I O → Prop)
    (hstep : ∀ s i, Inv s → C s i → Inv (step s i).2)
    (hiff : ∀ s i, Inv s → (P ⟨s, i, (step s i).1, (step s i).2⟩ ↔ C s i)) :
    ∀ {is : List I} {s : S}, Inv s →
      ((∀ e ∈ events step final s is, P e) ↔
        ∀ e ∈ events step final s is, C e.before e.input) := by
  intro is
  induction is with
  | nil => intro s _; simp [events]
  | cons i is ih =>
      intro s hs
      rw [events, List.forall_mem_cons, List.forall_mem_cons]
      constructor
      · rintro ⟨hP, hrest⟩
        -- the property of the head gives its condition, and with it the invariant for the rest
        have hC := (hiff s i hs).mp hP
        refine ⟨hC, ?_⟩
        split at hrest
        · rename_i hf
          simp [hf]
        · rename_i hf
          rw [if_neg hf]
          exact (ih (hstep s i hs hC)).mp hrest
      · rintro ⟨hC, hrest⟩
        refine ⟨(hiff s i hs).mpr hC, ?_⟩
        split at hrest
        · rename_i hf
          simp [hf]
        · rename_i hf
          rw [if_neg hf]
          exact (ih (hstep s i hs hC)).mpr hrest

end EventLog
