/-
# The salt sentry

`service/sentry.cpp`.  The sentry of an executor remembers the salts of Shadowsocks clients
in two generations: a lookup enters the salt into the young one, the timer makes the young
generation the old one, and a reset forgets both.  All three run on the strand of the
sentry, so that a run of the sentry is a sequence of such calls.

**Main result** (`contains_iff_seen`): a lookup answers `true` exactly when the same salt
was looked up before, since the last reset and with at most one rotation in between.
-/
import Mathlib.Data.Finset.Insert
import Mathlib.Data.List.Count
import Pichi.Reference

namespace Pichi

/-- `SaltSentry`; the strand and the timer are left out. -/
structure SaltSentry where
  expiring : Finset Bytes := ∅
  active : Finset Bytes := ∅

namespace SaltSentry

variable (hexEncode : Bytes → Bytes)

/-- `contains`.  The lookup enters the salt even if it is going to be refused. -/
def contains (salt : Bytes) (s : SaltSentry) : Bool × SaltSentry :=
  let key := hexEncode salt
  let inserted := key ∉ s.active
  (!inserted || key ∈ s.expiring, { s with active := insert key s.active })

/-- The body of the loop of `run`; the moved-from set is empty. -/
def rotate (s : SaltSentry) : SaltSentry := { expiring := s.active, active := ∅ }

/-- `reset`. -/
def reset (_ : SaltSentry) : SaltSentry := { expiring := ∅, active := ∅ }

/-- What happens on the strand. -/
inductive Call : Type where
  | contains (salt : Bytes)
  | rotate
  | reset
  deriving DecidableEq

/-- One call. -/
def step (s : SaltSentry) : Call → SaltSentry
  | .contains salt => (s.contains hexEncode salt).2
  | .rotate => s.rotate
  | .reset => s.reset

/-- The sentry after some calls. -/
def after (calls : List Call) : SaltSentry := calls.foldl (step hexEncode) {}

/-! ## Histories -/

/-- The salt was looked up, nothing was reset since then, and `n` rotations followed. -/
def SeenBefore (salt : Bytes) (n : ℕ) (calls : List Call) : Prop :=
  ∃ pre post, calls = pre ++ .contains salt :: post ∧ .reset ∉ post ∧ post.count .rotate = n

/-- The salt was looked up before, since the last reset and with at most one rotation in
between. -/
def Seen (salt : Bytes) (calls : List Call) : Prop :=
  ∃ pre post, calls = pre ++ .contains salt :: post ∧ .reset ∉ post ∧ post.count .rotate ≤ 1

variable {hexEncode} {salt : Bytes} {n : ℕ} {calls : List Call}

theorem not_seenBefore_nil : ¬SeenBefore salt n [] := by
  rintro ⟨pre, post, h, -⟩
  simp at h

/-- The last lookup decides, or an earlier one with the last call behind it. -/
theorem seenBefore_append_singleton {call : Call} :
    SeenBefore salt n (calls ++ [call]) ↔
      call = .contains salt ∧ n = 0
        ∨ call ≠ .reset ∧ ∃ m, SeenBefore salt m calls
          ∧ n = m + if call = .rotate then 1 else 0 := by
  constructor
  · rintro ⟨pre, post, h, hreset, hcount⟩
    rcases List.eq_nil_or_concat post with rfl | ⟨post, last, rfl⟩
    · obtain ⟨-, hlast⟩ := List.append_inj' h rfl
      exact Or.inl ⟨(List.cons.inj hlast).1, hcount.symm⟩
    · rw [List.concat_eq_append] at h hreset hcount
      have h' : calls ++ [call] = (pre ++ .contains salt :: post) ++ [last] := by
        rw [h, List.append_assoc, List.cons_append]
      obtain ⟨hcalls, hlast⟩ := List.append_inj' h' rfl
      obtain rfl : call = last := (List.cons.inj hlast).1
      rw [List.mem_append, List.mem_singleton, not_or] at hreset
      refine Or.inr ⟨fun hr => hreset.2 hr.symm, post.count .rotate,
        ⟨pre, post, hcalls, hreset.1, rfl⟩, ?_⟩
      rw [← hcount, List.count_append, List.count_singleton]
      simp only [beq_iff_eq]
  · rintro (⟨rfl, rfl⟩ | ⟨hne, m, ⟨pre, post, rfl, hreset, rfl⟩, rfl⟩)
    · exact ⟨calls, [], rfl, List.not_mem_nil, rfl⟩
    · refine ⟨pre, post ++ [call], by simp, ?_, ?_⟩
      · rw [List.mem_append, List.mem_singleton, not_or]
        exact ⟨hreset, fun hr => hne hr.symm⟩
      · rw [List.count_append, List.count_singleton]
        simp only [beq_iff_eq]

theorem seen_iff : Seen salt calls ↔ SeenBefore salt 0 calls ∨ SeenBefore salt 1 calls := by
  constructor
  · rintro ⟨pre, post, h, hreset, hcount⟩
    rcases Nat.le_one_iff_eq_zero_or_eq_one.mp hcount with hzero | hone
    · exact Or.inl ⟨pre, post, h, hreset, hzero⟩
    · exact Or.inr ⟨pre, post, h, hreset, hone⟩
  · rintro (⟨pre, post, h, hreset, hcount⟩ | ⟨pre, post, h, hreset, hcount⟩)
    · exact ⟨pre, post, h, hreset, by omega⟩
    · exact ⟨pre, post, h, hreset, by omega⟩

/-! ## The two generations -/

/-- **What the sentry remembers**: the young generation the salts looked up since the last
rotation, the old one those looked up in the turn before. -/
theorem mem_after_iff (hinj : Function.Injective hexEncode) (salt : Bytes) (calls : List Call) :
    (hexEncode salt ∈ (after hexEncode calls).active ↔ SeenBefore salt 0 calls)
      ∧ (hexEncode salt ∈ (after hexEncode calls).expiring ↔ SeenBefore salt 1 calls) := by
  induction calls using List.reverseRecOn with
  | nil => simp [after, not_seenBefore_nil]
  | append_singleton calls call ih =>
      obtain ⟨hactive, hexpiring⟩ := ih
      have hstep : after hexEncode (calls ++ [call])
          = step hexEncode (after hexEncode calls) call := by
        simp [after]
      rw [hstep, seenBefore_append_singleton, seenBefore_append_singleton]
      cases call with
      | contains salt' =>
          simp only [step, contains, Finset.mem_insert, hinj.eq_iff, hactive, hexpiring]
          constructor
          · simp [eq_comm]
          · simp
      | rotate => simp [step, rotate, hactive]
      | reset => simp [step, reset]

/-- **The replay window.**  After any calls, a lookup answers `true` exactly when the same
salt was looked up before, since the last reset and with at most one rotation in between. -/
theorem contains_iff_seen (hinj : Function.Injective hexEncode) (salt : Bytes)
    (calls : List Call) :
    ((after hexEncode calls).contains hexEncode salt).1 = true ↔ Seen salt calls := by
  obtain ⟨hactive, hexpiring⟩ := mem_after_iff hinj salt calls
  simp only [contains, Bool.or_eq_true, Bool.not_eq_true', decide_eq_true_eq,
    decide_eq_false_iff_not, not_not]
  rw [hactive, hexpiring, seen_iff]

/-- A salt that comes back after one rotation is refused; two rotations forget it. -/
theorem contains_iff_seen_example :
    ((after Reference.hexEncode [.contains [1], .rotate]).contains Reference.hexEncode [1]).1 = true
      ∧ ¬Seen [1] [.contains [1], .rotate, .rotate] := by
  constructor
  · rw [contains_iff_seen Reference.hexEncode_injective]
    exact ⟨[], [.rotate], rfl, by decide, by decide⟩
  · rw [← contains_iff_seen Reference.hexEncode_injective]
    decide

end SaltSentry

end Pichi
