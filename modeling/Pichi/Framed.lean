/-
# Transfers over frames

A library about channels that hand out what they carry frame by frame.  A frame may be
empty, and then the primitive read delivers nothing without having failed.

* `readAll` is the composed read over such a primitive: it repeats the primitive until the
  request is answered or the primitive delivers nothing, and then succeeds with fewer
  symbols than it was asked for.
* `Simulates` relates two primitives that give the same answers; composed reads and whole
  programs over them give the same answers as well.  `Answers` is the weaker relation for a
  primitive that may also fail where the other one does not.
* `pop` is the primitive read of a queue of frames.  `Solid n` says that no empty frame
  begins among the first `n` symbols, and `readAll_pop_of_solid`, `solid_of_readAll_pop` that
  this is exactly when a request for `n` symbols is answered in full.
-/
import Mathlib.Tactic.Common
import Pichi.Transfer

namespace Transfer

variable {σ ε α S T : Type}

/-! ## The composed read over a primitive -/

/-- Repeat the primitive until the request is answered.  A primitive that delivers nothing
ends the operation. -/
def readAll (readSome : S → ℕ → Except ε (List σ) × S) (s : S) (n : ℕ) :
    Except ε (List σ) × S :=
  match readSome s n with
  | (.error e, s') => (.error e, s')
  | (.ok got, s') =>
    if _h : got = [] ∨ n ≤ got.length then (.ok got, s')
    else
      match readAll readSome s' (n - got.length) with
      | (.error e, s'') => (.error e, s'')
      | (.ok more, s'') => (.ok (got ++ more), s'')
termination_by n
decreasing_by
  rw [not_or] at _h
  have hpos : 0 < got.length := List.length_pos_of_ne_nil _h.1
  omega

section Equations

variable {f : S → ℕ → Except ε (List σ) × S} {s s' : S} {n : ℕ} {e : ε} {got : List σ}

theorem readAll_of_error (h : f s n = (.error e, s')) : readAll f s n = (.error e, s') := by
  rw [readAll, h]

theorem readAll_of_end (h : f s n = (.ok got, s')) (hend : got = [] ∨ n ≤ got.length) :
    readAll f s n = (.ok got, s') := by
  rw [readAll, h]
  exact dif_pos hend

theorem readAll_of_more (h : f s n = (.ok got, s')) (hmore : ¬(got = [] ∨ n ≤ got.length)) :
    readAll f s n
      = ((readAll f s' (n - got.length)).1.map (got ++ ·), (readAll f s' (n - got.length)).2) := by
  rw [readAll, h]
  refine (dif_neg hmore).trans ?_
  rcases readAll f s' (n - got.length) with ⟨e | more, s''⟩ <;> rfl

end Equations

/-! ## Simulation -/

/-- Related states give the same answers and stay related. -/
def Simulates (R : S → T → Prop) (f : S → ℕ → Except ε (List σ) × S)
    (g : T → ℕ → Except ε (List σ) × T) : Prop :=
  ∀ s t n, R s t → ∃ r s' t', f s n = (r, s') ∧ g t n = (r, t') ∧ R s' t'

variable {R : S → T → Prop} {f : S → ℕ → Except ε (List σ) × S}
  {g : T → ℕ → Except ε (List σ) × T}

theorem Simulates.readAll (h : Simulates R f g) :
    Simulates R (Transfer.readAll f) (Transfer.readAll g) := by
  intro s t n hst
  induction n using Nat.strongRecOn generalizing s t with
  | ind n ih =>
      obtain ⟨r, s', t', hf, hg, hstate⟩ := h s t n hst
      cases r with
      | error e => exact ⟨_, s', t', readAll_of_error hf, readAll_of_error hg, hstate⟩
      | ok got =>
          by_cases hend : got = [] ∨ n ≤ got.length
          · exact ⟨_, s', t', readAll_of_end hf hend, readAll_of_end hg hend, hstate⟩
          · have hpos : 0 < got.length :=
              List.length_pos_of_ne_nil fun hnil => hend (Or.inl hnil)
            obtain ⟨r, s'', t'', hf', hg', hstate'⟩ := ih (n - got.length) (by omega) s' t' hstate
            exact ⟨_, s'', t'', by rw [readAll_of_more hf hend, hf'],
              by rw [readAll_of_more hg hend, hg'], hstate'⟩

theorem Simulates.run (h : Simulates R f g) (x : Reader σ ε α) :
    ∀ s t, R s t → ∃ r s' t', x.run f s = (r, s') ∧ x.run g t = (r, t') ∧ R s' t' := by
  induction x with
  | ret a => exact fun s t hst => ⟨_, s, t, rfl, rfl, hst⟩
  | fail e => exact fun s t hst => ⟨_, s, t, rfl, rfl, hst⟩
  | read n k ih =>
      intro s t hst
      obtain ⟨r, s', t', hf, hg, hstate⟩ := h s t n hst
      rw [Reader.run, Reader.run, hf, hg]
      cases r with
      | error e => exact ⟨_, s', t', rfl, rfl, hstate⟩
      | ok w => exact ih w s' t' hstate

/-- What the first primitive answers, the second one answers as well. -/
def Answers (R : S → T → Prop) (f : S → ℕ → Except ε (List σ) × S)
    (g : T → ℕ → Except ε (List σ) × T) : Prop :=
  ∀ s t n w s', R s t → f s n = (.ok w, s') → ∃ t', g t n = (.ok w, t') ∧ R s' t'

theorem Answers.readAll (h : Answers R f g) :
    Answers R (Transfer.readAll f) (Transfer.readAll g) := by
  intro s t n w s' hst hread
  induction n using Nat.strongRecOn generalizing s t w with
  | ind n ih =>
      rcases hf : f s n with ⟨e | got, s₁⟩
      · rw [readAll_of_error hf] at hread
        cases hread
      · obtain ⟨t₁, hg, hst₁⟩ := h s t n got s₁ hst hf
        by_cases hend : got = [] ∨ n ≤ got.length
        · rw [readAll_of_end hf hend] at hread
          cases hread
          exact ⟨t₁, readAll_of_end hg hend, hst₁⟩
        · have hpos : 0 < got.length :=
            List.length_pos_of_ne_nil fun hnil => hend (Or.inl hnil)
          rw [readAll_of_more hf hend] at hread
          rcases hrest : Transfer.readAll f s₁ (n - got.length) with ⟨e | more, s₂⟩
          · rw [hrest] at hread
            cases hread
          · rw [hrest] at hread
            cases hread
            obtain ⟨t₂, hg₂, hst₂⟩ := ih (n - got.length) (by omega) s₁ t₁ more hst₁ hrest
            exact ⟨t₂, by rw [readAll_of_more hg hend, hg₂]; rfl, hst₂⟩

theorem Answers.run (h : Answers R f g) (x : Reader σ ε α) :
    ∀ s t a s', R s t → x.run f s = (.ok a, s') → ∃ t', x.run g t = (.ok a, t') ∧ R s' t' := by
  induction x with
  | ret b =>
      intro s t a s' hst hrun
      cases hrun
      exact ⟨t, rfl, hst⟩
  | fail e =>
      intro s t a s' hst hrun
      cases hrun
  | read n k ih =>
      intro s t a s' hst hrun
      obtain ⟨w, s₁, hf, hrun⟩ := Reader.exists_of_run_read_eq_ok hrun
      obtain ⟨t₁, hg, hst₁⟩ := h s t n w s₁ hst hf
      obtain ⟨t₂, hrun₂, hst₂⟩ := ih w s₁ t₁ a s' hst₁ hrun
      exact ⟨t₂, by rw [Reader.run_read_of_ok hg, hrun₂], hst₂⟩

/-! ## Queues of frames -/

/-- Read from the first frame of a queue; `e` is the end of the channel.  What does not fit is
left for the next read. -/
def pop (e : ε) (q : List (List σ)) (n : ℕ) : Except ε (List σ) × List (List σ) :=
  match q with
  | [] => (.error e, [])
  | x :: q => (.ok (x.take n), if x.length ≤ n then q else x.drop n :: q)

/-- No empty frame begins among the first `n` symbols. -/
def Solid (n : ℕ) (q : List (List σ)) : Prop :=
  ∀ before x after, q = before ++ x :: after → before.flatten.length < n → x ≠ []

variable {e : ε} {n k : ℕ} {x w : List σ} {q q' : List (List σ)}

/-- What is read from a queue was at its beginning. -/
theorem flatten_of_pop (h : pop e q n = (.ok w, q')) : q.flatten = w ++ q'.flatten := by
  cases q with
  | nil => cases h
  | cons x q =>
      cases h
      split
      · rw [List.take_of_length_le (by assumption), List.flatten_cons]
      · rw [List.flatten_cons, List.flatten_cons, ← List.append_assoc, List.take_append_drop]

/-- More frames at the end do not change what is read. -/
theorem answers_pop : Answers (fun q t : List (List σ) => q <+: t) (pop e) (pop e) := by
  rintro q t n w q' ⟨more, rfl⟩ h
  cases q with
  | nil => cases h
  | cons x q =>
      cases h
      refine ⟨_, rfl, ?_⟩
      split
      · exact List.prefix_append _ _
      · exact ⟨more, rfl⟩

theorem solid_zero (q : List (List σ)) : Solid 0 q := fun _ _ _ _ h => absurd h (Nat.not_lt_zero _)

theorem solid_cons :
    Solid n (x :: q) ↔ (0 < n → x ≠ []) ∧ Solid (n - x.length) q := by
  constructor
  · intro h
    constructor
    · intro hn
      exact h [] x q rfl hn
    · rintro before y after rfl hlt
      apply h (x :: before) y after rfl
      rw [List.flatten_cons, List.length_append]
      omega
  · rintro ⟨hx, hq⟩ before y after heq hlt
    cases before with
    | nil =>
        obtain ⟨rfl, -⟩ := List.cons.inj heq
        exact hx hlt
    | cons z before =>
        obtain ⟨rfl, rfl⟩ := List.cons.inj heq
        rw [List.flatten_cons, List.length_append] at hlt
        exact hq before y after rfl (by omega)

/-- The queue after a read that left a part of the first frame, or all of it, is as solid as
the queue before it. -/
theorem solid_drop_iff (hn : 0 < n) (hle : n ≤ x.length) :
    Solid (n + k) (x :: q) ↔ Solid k (if x.length ≤ n then q else x.drop n :: q) := by
  have hx : x ≠ [] := List.ne_nil_of_length_pos (by omega)
  rw [solid_cons]
  split
  · have hsub : n + k - x.length = k := by omega
    rw [hsub]
    exact ⟨fun h => h.2, fun h => ⟨fun _ => hx, h⟩⟩
  · have hdrop : x.drop n ≠ [] := by
      rw [ne_eq, List.drop_eq_nil_iff]
      omega
    have hsub : n + k - x.length = k - (x.drop n).length := by
      rw [List.length_drop]
      omega
    rw [solid_cons, hsub]
    exact ⟨fun h => ⟨fun _ => hdrop, h.2⟩, fun h => ⟨fun _ => hx, h.2⟩⟩

/-- A request that a solid queue can answer is answered in full. -/
theorem readAll_pop_of_solid (hn : 0 < n) (hsolid : Solid (n + k) q)
    (hle : n ≤ q.flatten.length) :
    ∃ q', readAll (pop e) q n = (.ok (q.flatten.take n), q')
      ∧ q'.flatten = q.flatten.drop n ∧ Solid k q' := by
  induction q generalizing n with
  | nil =>
      simp only [List.flatten_nil, List.length_nil] at hle
      omega
  | cons x q ih =>
      obtain ⟨hx, hq⟩ := solid_cons.mp hsolid
      have hpos : 0 < x.length := List.length_pos_of_ne_nil (hx (by omega))
      by_cases hfits : n ≤ x.length
      · -- the first frame answers the request
        have hpop : pop e (x :: q) n
            = (.ok (x.take n), if x.length ≤ n then q else x.drop n :: q) := rfl
        refine ⟨_, (readAll_of_end hpop (Or.inr (by simp [hfits]))).trans ?_, ?_,
          (solid_drop_iff hn hfits).mp hsolid⟩
        · rw [List.flatten_cons, List.take_append_of_le_length hfits]
        · rw [List.flatten_cons, List.drop_append_of_le_length hfits]
          split
          · rw [List.drop_of_length_le (by omega), List.nil_append]
          · rfl
      · -- the first frame is used up, and the rest of the request goes to the others
        have hpop : pop e (x :: q) n = (.ok x, q) := by
          rw [pop, List.take_of_length_le (by omega), if_pos (by omega)]
        have hrest : n - x.length ≤ q.flatten.length := by
          rw [List.flatten_cons, List.length_append] at hle
          omega
        have hsub : n + k - x.length = n - x.length + k := by omega
        rw [hsub] at hq
        obtain ⟨q', hread, hflat, hsolid'⟩ := ih (by omega) hq hrest
        refine ⟨q', ?_, ?_, hsolid'⟩
        · rw [readAll_of_more hpop (by rw [not_or]; exact ⟨hx (by omega), hfits⟩), hread]
          have htake : x.take n = x := List.take_of_length_le (by omega)
          simp only [Except.map, List.flatten_cons, List.take_append, htake]
        · have hdrop : x.drop n = [] := List.drop_of_length_le (by omega)
          rw [hflat, List.flatten_cons, List.drop_append, hdrop, List.nil_append]

/-- What a request takes from a queue, and when it is answered in full. -/
theorem of_readAll_pop (h : readAll (pop e) q n = (.ok w, q')) :
    q.flatten = w ++ q'.flatten ∧ w.length ≤ n
      ∧ (w.length = n → 0 < n → ∀ k, Solid k q' → Solid (n + k) q) := by
  induction q generalizing n w with
  | nil =>
      rw [readAll_of_error (show pop e [] n = (.error e, []) from rfl)] at h
      cases h
  | cons x q ih =>
      have hpop : pop e (x :: q) n
          = (.ok (x.take n), if x.length ≤ n then q else x.drop n :: q) := rfl
      by_cases hend : x.take n = [] ∨ n ≤ (x.take n).length
      · rw [readAll_of_end hpop hend] at h
        cases h
        refine ⟨flatten_of_pop hpop, List.length_take_le _ _, ?_⟩
        · intro hfull hn k hk
          rw [List.length_take] at hfull
          exact (solid_drop_iff hn (by omega)).mpr hk
      · rw [readAll_of_more hpop hend] at h
        rw [not_or, List.length_take] at hend
        have hlt : x.length < n := by omega
        rw [if_pos (by omega), List.take_of_length_le (by omega)] at h
        rcases hread : readAll (pop e) q (n - x.length) with ⟨e' | more, q''⟩
        · rw [hread] at h
          cases h
        · rw [hread] at h
          cases h
          obtain ⟨hflat, hlen, hsolid⟩ := ih hread
          refine ⟨?_, ?_, ?_⟩
          · rw [List.flatten_cons, hflat, List.append_assoc]
          · rw [List.length_append]
            omega
          · intro hfull hn k hk
            rw [List.length_append] at hfull
            have hx : x ≠ [] := by
              rintro rfl
              simp at hend
            rw [solid_cons]
            have hsub : n + k - x.length = n - x.length + k := by omega
            rw [hsub]
            exact ⟨fun _ => hx, hsolid (by omega) (by omega) k hk⟩

end Transfer
