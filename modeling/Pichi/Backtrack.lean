/-
# Backtracking pattern matching

A library of ECMAScript-style patterns over an arbitrary alphabet, in the
fragment where repetition applies to a single symbol class.  `Pattern.run` is the
matcher: it explores the alternatives in priority order (the left branch of an
alternative first, the longest repetition first, taking an optional part first)
and hands each position it reaches to a continuation; the first continuation that
succeeds decides.  `Pattern.Matches` is the relation behind it:
what is returned was computed at a cursor the relation reaches
(`exists_of_run_eq_some`), and something is returned if there is such a cursor
(`isSome_regexMatch_iff`).

`run_many_of_longest` and `run_word` evaluate the matcher on inputs whose shape
is known, which is how captures are read off.
-/
import Mathlib.Data.List.Basic

namespace Backtrack

variable {σ : Type}

/-! ## Patterns and cursors -/

/-- Patterns over the alphabet `σ`.  `many p` is the greedy repetition of the class
`p`, `opt a` the greedy `a?`, `group n a` the numbered capturing group. -/
inductive Pattern (σ : Type) : Type where
  | eps : Pattern σ
  | one (p : σ → Bool) : Pattern σ
  | many (p : σ → Bool) : Pattern σ
  | seq (a b : Pattern σ) : Pattern σ
  | alt (a b : Pattern σ) : Pattern σ
  | opt (a : Pattern σ) : Pattern σ
  | group (n : ℕ) (a : Pattern σ) : Pattern σ
  | startOfInput : Pattern σ
  | endOfInput : Pattern σ

/-- What a group captured: where it starts in the subject, and its text. -/
structure SubMatch (σ : Type) where
  first : ℕ
  text : List σ
  deriving DecidableEq

/-- A position in the subject: the symbols consumed so far are counted, the
others are at hand, and the groups closed so far are listed, last one first. -/
structure Cursor (σ : Type) where
  pos : ℕ
  rest : List σ
  groups : List (ℕ × SubMatch σ)
  deriving DecidableEq

namespace Cursor

/-- The cursor in front of the subject. -/
def start (s : List σ) : Cursor σ := ⟨0, s, []⟩

/-- Consume the word `w`, leaving `t`. -/
def advance (c : Cursor σ) (w t : List σ) : Cursor σ :=
  ⟨c.pos + w.length, t, c.groups⟩

/-- Close group `n`, opened at `c`, at the cursor `c'`. -/
def close (n : ℕ) (c c' : Cursor σ) : Cursor σ :=
  { c' with groups := (n, ⟨c.pos, c.rest.take (c'.pos - c.pos)⟩) :: c'.groups }

@[simp] theorem close_pos (n : ℕ) (c c' : Cursor σ) : (close n c c').pos = c'.pos := rfl

@[simp] theorem close_rest (n : ℕ) (c c' : Cursor σ) : (close n c c').rest = c'.rest := rfl

@[simp] theorem advance_pos (c : Cursor σ) (w t : List σ) :
    (c.advance w t).pos = c.pos + w.length := rfl

@[simp] theorem advance_rest (c : Cursor σ) (w t : List σ) : (c.advance w t).rest = t := rfl

@[simp] theorem advance_groups (c : Cursor σ) (w t : List σ) :
    (c.advance w t).groups = c.groups := rfl

theorem advance_advance (c : Cursor σ) (x : σ) (w s t : List σ) :
    (c.advance [x] s).advance w t = c.advance (x :: w) t := by
  simp only [advance, List.length_cons, List.length_nil, mk.injEq, and_true]
  omega

end Cursor

namespace Pattern

/-- One symbol equal to `x`. -/
def sym [DecidableEq σ] (x : σ) : Pattern σ := one (· == x)

/-- A fixed word. -/
def word [DecidableEq σ] : List σ → Pattern σ
  | [] => eps
  | x :: w => seq (sym x) (word w)

/-- The greedy `p+`. -/
def many1 (p : σ → Bool) : Pattern σ := seq (one p) (many p)

/-! ## The matcher -/

/-- The greedy repetition of `p` in front of `t`: the longest run first. -/
def runMany {α : Type} (p : σ → Bool) (k : Cursor σ → Option α) :
    List σ → Cursor σ → Option α
  | [], c => k c
  | x :: t, c =>
    -- the shorter run is tried only after everything behind the longer one has failed
    if p x then (runMany p k t (c.advance [x] t)).or (k c) else k c

/-- The backtracking matcher, in continuation-passing form. -/
def run {α : Type} : Pattern σ → Cursor σ → (Cursor σ → Option α) → Option α
  | eps, c, k => k c
  | one p, c, k =>
    match c.rest with
    | [] => none
    | x :: t => if p x then k (c.advance [x] t) else none
  | many p, c, k => runMany p k c.rest c
  | seq a b, c, k => a.run c fun c' => b.run c' k
  | alt a b, c, k => (a.run c k).or (b.run c k)
  | opt a, c, k => (a.run c k).or (k c)
  | group n a, c, k => a.run c fun c' => k (c.close n c')
  | startOfInput, c, k => if c.pos = 0 then k c else none
  | endOfInput, c, k => if c.rest.isEmpty then k c else none

/-- `std::regex_match`: the whole subject has to be matched; the captures of the
first alternative that does so are returned. -/
def regexMatch (p : Pattern σ) (s : List σ) : Option (List (ℕ × SubMatch σ)) :=
  p.run (Cursor.start s) fun c => if c.rest.isEmpty then some c.groups else none

/-! ## The relation the matcher decides -/

/-- `Matches p c c'`: the pattern can consume the input between the two cursors. -/
def Matches : Pattern σ → Cursor σ → Cursor σ → Prop
  | eps, c, c' => c' = c
  | one p, c, c' => ∃ x t, c.rest = x :: t ∧ p x = true ∧ c' = c.advance [x] t
  | many p, c, c' => ∃ w t, c.rest = w ++ t ∧ (∀ x ∈ w, p x = true) ∧ c' = c.advance w t
  | seq a b, c, c' => ∃ m, a.Matches c m ∧ b.Matches m c'
  | alt a b, c, c' => a.Matches c c' ∨ b.Matches c c'
  | opt a, c, c' => a.Matches c c' ∨ c' = c
  | group n a, c, c' => ∃ m, a.Matches c m ∧ c' = c.close n m
  | startOfInput, c, c' => c.pos = 0 ∧ c' = c
  | endOfInput, c, c' => c.rest = [] ∧ c' = c

theorem exists_of_runMany_eq_some {α : Type} {p : σ → Bool} {k : Cursor σ → Option α} {v : α} :
    ∀ (s : List σ) (c : Cursor σ), runMany p k s c = some v → c.rest = s →
      ∃ c', (many p).Matches c c' ∧ k c' = some v := by
  intro s
  induction s with
  | nil =>
      intro c h hc
      refine ⟨c, ⟨[], [], by simp [hc], by simp, ?_⟩, h⟩
      obtain ⟨pos, rest, groups⟩ := c
      simp_all [Cursor.advance]
  | cons x t ih =>
      intro c h hc
      -- the empty run, on which the repetition falls back
      have hstay : (many p).Matches c c := by
        refine ⟨[], c.rest, by simp, by simp, ?_⟩
        obtain ⟨pos, rest, groups⟩ := c
        simp [Cursor.advance]
      rw [runMany] at h
      by_cases hx : p x = true
      · rw [if_pos hx, Option.or_eq_some_iff] at h
        rcases h with h | ⟨-, h⟩
        · obtain ⟨c', ⟨w, u, hr, hw, hadv⟩, hk⟩ := ih _ h rfl
          refine ⟨c', ⟨x :: w, u, ?_, ?_, ?_⟩, hk⟩
          · rw [hc, List.cons_append]
            exact congrArg _ hr
          · intro y hy
            rcases List.mem_cons.mp hy with rfl | hy
            · exact hx
            · exact hw y hy
          · rw [hadv, Cursor.advance_advance]
        · exact ⟨c, hstay, h⟩
      · rw [if_neg hx] at h
        exact ⟨c, hstay, h⟩

/-- Whatever the matcher returns was computed at a cursor the relation reaches. -/
theorem exists_of_run_eq_some {α : Type} (p : Pattern σ) :
    ∀ (c : Cursor σ) (k : Cursor σ → Option α) (v : α), p.run c k = some v →
      ∃ c', p.Matches c c' ∧ k c' = some v := by
  induction p with
  | eps => intro c k v h; exact ⟨c, rfl, h⟩
  | one p =>
      intro c k v h
      rw [run] at h
      split at h
      · cases h
      · rename_i x t hr
        split at h
        · rename_i hx
          exact ⟨_, ⟨x, t, hr, hx, rfl⟩, h⟩
        · cases h
  | many p => intro c k v h; exact exists_of_runMany_eq_some c.rest c h rfl
  | seq a b iha ihb =>
      intro c k v h
      obtain ⟨m, hm, hb⟩ := iha c _ v h
      obtain ⟨c', hc', hk⟩ := ihb m k v hb
      exact ⟨c', ⟨m, hm, hc'⟩, hk⟩
  | alt a b iha ihb =>
      intro c k v h
      rw [run, Option.or_eq_some_iff] at h
      rcases h with h | ⟨-, h⟩
      · obtain ⟨c', hc', hk⟩ := iha c k v h
        exact ⟨c', Or.inl hc', hk⟩
      · obtain ⟨c', hc', hk⟩ := ihb c k v h
        exact ⟨c', Or.inr hc', hk⟩
  | opt a iha =>
      intro c k v h
      rw [run, Option.or_eq_some_iff] at h
      rcases h with h | ⟨-, h⟩
      · obtain ⟨c', hc', hk⟩ := iha c k v h
        exact ⟨c', Or.inl hc', hk⟩
      · exact ⟨c, Or.inr rfl, h⟩
  | group n a iha =>
      intro c k v h
      obtain ⟨m, hm, hk⟩ := iha c _ v h
      exact ⟨_, ⟨m, hm, rfl⟩, hk⟩
  | startOfInput =>
      intro c k v h
      rw [run] at h
      split at h
      · rename_i hp
        exact ⟨c, ⟨hp, rfl⟩, h⟩
      · cases h
  | endOfInput =>
      intro c k v h
      rw [run] at h
      split at h
      · rename_i hr
        exact ⟨c, ⟨List.isEmpty_iff.mp hr, rfl⟩, h⟩
      · cases h

/-- A match of the whole subject comes from a cursor at its end. -/
theorem exists_of_regexMatch_eq_some {p : Pattern σ} {s : List σ}
    {groups : List (ℕ × SubMatch σ)} (h : p.regexMatch s = some groups) :
    ∃ c, p.Matches (Cursor.start s) c ∧ c.rest = [] ∧ c.groups = groups := by
  obtain ⟨c, hm, hk⟩ := exists_of_run_eq_some p _ _ _ h
  split at hk
  · rename_i hr
    exact ⟨c, hm, List.isEmpty_iff.mp hr, Option.some.inj hk⟩
  · cases hk

/-- A pattern consumes a part of the subject. -/
theorem exists_append_of_matches (p : Pattern σ) :
    ∀ {c c' : Cursor σ}, p.Matches c c' →
      ∃ w, c.rest = w ++ c'.rest ∧ c'.pos = c.pos + w.length := by
  induction p with
  | eps =>
      rintro c _ rfl
      exact ⟨[], rfl, rfl⟩
  | one p =>
      rintro c _ ⟨x, t, hc, -, rfl⟩
      exact ⟨[x], hc, rfl⟩
  | many p =>
      rintro c _ ⟨w, t, hc, -, rfl⟩
      exact ⟨w, hc, rfl⟩
  | seq a b iha ihb =>
      rintro c c' ⟨m, ha, hb⟩
      obtain ⟨w, hw, hpos⟩ := iha ha
      obtain ⟨w', hw', hpos'⟩ := ihb hb
      refine ⟨w ++ w', by rw [hw, hw', List.append_assoc], ?_⟩
      rw [hpos', hpos, List.length_append, Nat.add_assoc]
  | alt a b iha ihb =>
      rintro c c' (h | h)
      · exact iha h
      · exact ihb h
  | opt a ih =>
      rintro c c' (h | rfl)
      · exact ih h
      · exact ⟨[], rfl, rfl⟩
  | group n a ih =>
      rintro c _ ⟨m, h, rfl⟩
      obtain ⟨w, hw, hpos⟩ := ih h
      exact ⟨w, hw, hpos⟩
  | startOfInput =>
      rintro c _ ⟨-, rfl⟩
      exact ⟨[], rfl, rfl⟩
  | endOfInput =>
      rintro c _ ⟨-, rfl⟩
      exact ⟨[], rfl, rfl⟩

/-! ## Completeness -/

/-- A repetition reaches every run of its class. -/
theorem isSome_runMany {α : Type} {p : σ → Bool} {k : Cursor σ → Option α} {t : List σ} :
    ∀ (w : List σ) (c : Cursor σ), c.rest = w ++ t → (∀ x ∈ w, p x = true) →
      (k (c.advance w t)).isSome = true → (runMany p k (w ++ t) c).isSome = true := by
  intro w
  induction w with
  | nil =>
      intro c hc _ hk
      have hself : c.advance [] t = c := by
        obtain ⟨pos, rest, groups⟩ := c
        simp_all [Cursor.advance]
      rw [hself] at hk
      cases t with
      | nil => exact hk
      | cons y u =>
          rw [List.nil_append, runMany]
          split
          · rw [Option.isSome_or, hk, Bool.or_true]
          · exact hk
  | cons x w ih =>
      intro c hc hw hk
      rw [List.cons_append, runMany, if_pos (hw x (by simp)), Option.isSome_or]
      have hrec := ih (c.advance [x] (w ++ t)) rfl (fun y hy => hw y (by simp [hy]))
        (by rw [Cursor.advance_advance, hk])
      rw [hrec, Bool.true_or]

/-- Where the relation reaches a cursor at which the continuation succeeds, the matcher
succeeds, there or at another one. -/
theorem isSome_run_of_matches {α : Type} (p : Pattern σ) :
    ∀ {c c' : Cursor σ} {k : Cursor σ → Option α}, p.Matches c c' → (k c').isSome = true →
      (p.run c k).isSome = true := by
  induction p with
  | eps =>
      rintro c c' k rfl hk
      exact hk
  | one p =>
      rintro c c' k ⟨x, t, hrest, hx, rfl⟩ hk
      rw [run, hrest]
      simp only [hx, if_true]
      exact hk
  | many p =>
      rintro c c' k ⟨w, t, hrest, hw, rfl⟩ hk
      rw [run, hrest]
      exact isSome_runMany w c hrest hw hk
  | seq a b iha ihb =>
      rintro c c' k ⟨m, ha, hb⟩ hk
      exact iha ha (ihb hb hk)
  | alt a b iha ihb =>
      rintro c c' k (ha | hb) hk
      · rw [run, Option.isSome_or, iha ha hk, Bool.true_or]
      · rw [run, Option.isSome_or, ihb hb hk, Bool.or_true]
  | opt a iha =>
      rintro c c' k (ha | rfl) hk
      · rw [run, Option.isSome_or, iha ha hk, Bool.true_or]
      · rw [run, Option.isSome_or, hk, Bool.or_true]
  | group n a iha =>
      rintro c c' k ⟨m, ha, rfl⟩ hk
      exact iha ha hk
  | startOfInput =>
      rintro c c' k ⟨hpos, rfl⟩ hk
      rw [run, if_pos hpos]
      exact hk
  | endOfInput =>
      rintro c c' k ⟨hrest, rfl⟩ hk
      rw [run, hrest]
      exact hk

/-- **The matcher decides the relation.** -/
theorem isSome_regexMatch_iff (p : Pattern σ) (s : List σ) :
    (p.regexMatch s).isSome = true ↔ ∃ c, p.Matches (Cursor.start s) c ∧ c.rest = [] := by
  constructor
  · intro h
    obtain ⟨groups, hgroups⟩ := Option.isSome_iff_exists.mp h
    obtain ⟨c, hm, hrest, -⟩ := exists_of_regexMatch_eq_some hgroups
    exact ⟨c, hm, hrest⟩
  · rintro ⟨c, hm, hrest⟩
    apply isSome_run_of_matches p hm
    rw [hrest]
    rfl

/-- What `p+` consumes is a non-empty run. -/
theorem exists_of_matches_many1 {p : σ → Bool} {c c' : Cursor σ} (h : (many1 p).Matches c c') :
    ∃ w t, c.rest = w ++ t ∧ w ≠ [] ∧ (∀ x ∈ w, p x = true) ∧ c' = c.advance w t := by
  obtain ⟨m, ⟨x, t, hx, hpx, rfl⟩, w, u, hw, hpw, rfl⟩ := h
  rw [Cursor.advance_rest] at hw
  refine ⟨x :: w, u, by rw [hx, hw, List.cons_append], by simp, ?_,
    Cursor.advance_advance _ _ _ _ _⟩
  intro y hy
  rcases List.mem_cons.mp hy with rfl | hy
  · exact hpx
  · exact hpw y hy

theorem matches_many1 {p : σ → Bool} {w t : List σ} {c : Cursor σ} (hc : c.rest = w ++ t)
    (hne : w ≠ []) (hw : ∀ x ∈ w, p x = true) : (many1 p).Matches c (c.advance w t) := by
  cases w with
  | nil => exact absurd rfl hne
  | cons x w =>
      refine ⟨c.advance [x] (w ++ t), ⟨x, w ++ t, hc, hw x (by simp), rfl⟩, w, t, rfl,
        fun y hy => hw y (by simp [hy]), ?_⟩
      rw [Cursor.advance_advance]

/-! ## Evaluating the matcher on a known input -/

/-- A repetition that can use the whole run `w` and then succeed does exactly that,
whatever shorter runs would do. -/
theorem run_many_of_longest {α : Type} {p : σ → Bool} {k : Cursor σ → Option α} {v : α}
    {t : List σ} (ht : ∀ x ∈ t.head?, p x = false) :
    ∀ (w : List σ) (c : Cursor σ), c.rest = w ++ t → (∀ x ∈ w, p x = true) →
      k (c.advance w t) = some v → (many p).run c k = some v := by
  suffices key : ∀ (w : List σ) (c : Cursor σ), c.rest = w ++ t → (∀ x ∈ w, p x = true) →
      k (c.advance w t) = some v → runMany p k (w ++ t) c = some v by
    intro w c hc hw hk
    rw [run, hc]
    exact key w c hc hw hk
  intro w
  induction w with
  | nil =>
      intro c hc _ hk
      have hself : c.advance [] t = c := by
        obtain ⟨pos, rest, groups⟩ := c
        simp_all [Cursor.advance]
      rw [hself] at hk
      cases t with
      | nil => exact hk
      | cons y u =>
          rw [List.nil_append, runMany, if_neg (by simp [ht y (by simp)])]
          exact hk
  | cons x w ih =>
      intro c hc hw hk
      -- the longer run succeeds, so that `Option.or` never looks at the shorter one
      rw [List.cons_append, runMany, if_pos (hw x (by simp))]
      have hrec := ih (c.advance [x] (w ++ t)) rfl (fun y hy => hw y (by simp [hy]))
        (by rw [Cursor.advance_advance, hk])
      rw [hrec]
      rfl

/-- The same for `p+`, on a non-empty run. -/
theorem run_many1_of_longest {α : Type} {p : σ → Bool} {k : Cursor σ → Option α} {v : α}
    {w t : List σ} (ht : ∀ x ∈ t.head?, p x = false) (c : Cursor σ) (hc : c.rest = w ++ t)
    (hne : w ≠ []) (hw : ∀ x ∈ w, p x = true) (hk : k (c.advance w t) = some v) :
    (many1 p).run c k = some v := by
  cases w with
  | nil => exact absurd rfl hne
  | cons x w =>
      rw [many1, run, run, hc, List.cons_append]
      simp only [hw x (by simp), if_true]
      apply run_many_of_longest ht w _ rfl (fun y hy => hw y (by simp [hy]))
      rw [Cursor.advance_advance, hk]

/-- The first alternative decides when it succeeds. -/
theorem run_alt_of_left {α : Type} {a b : Pattern σ} {c : Cursor σ} {k : Cursor σ → Option α}
    {v : α} (h : a.run c k = some v) : (alt a b).run c k = some v := by
  rw [run, h]
  rfl

/-- An optional part is taken when that succeeds. -/
theorem run_opt_of_taken {α : Type} {a : Pattern σ} {c : Cursor σ} {k : Cursor σ → Option α} {v : α}
    (h : a.run c k = some v) : (opt a).run c k = some v := by
  rw [run, h]
  rfl

theorem run_startOfInput {α : Type} {s : List σ} {k : Cursor σ → Option α} :
    startOfInput.run (Cursor.start s) k = k (Cursor.start s) := rfl

theorem run_endOfInput {α : Type} {c : Cursor σ} {k : Cursor σ → Option α} (h : c.rest = []) :
    endOfInput.run c k = k c := by
  rw [run, h]
  rfl

/-- The group of a word that was consumed. -/
theorem close_advance (n : ℕ) {c : Cursor σ} {w t : List σ} (hc : c.rest = w ++ t)
    (groups : List (ℕ × SubMatch σ)) :
    c.close n ⟨c.pos + w.length, t, groups⟩ = ⟨c.pos + w.length, t, (n, ⟨c.pos, w⟩) :: groups⟩ := by
  rw [Cursor.close, hc, Nat.add_sub_cancel_left, List.take_left]

theorem groups_close_advance (n : ℕ) {c : Cursor σ} {w t : List σ} (hc : c.rest = w ++ t) :
    (c.close n (c.advance w t)).groups = (n, ⟨c.pos, w⟩) :: c.groups := by
  rw [Cursor.advance, close_advance n hc]

section Words

variable [DecidableEq σ]

theorem exists_of_matches_sym {x : σ} {c c' : Cursor σ} (h : (sym x).Matches c c') :
    ∃ t, c.rest = x :: t ∧ c' = c.advance [x] t := by
  obtain ⟨y, t, hy, hyx, rfl⟩ := h
  rw [beq_iff_eq] at hyx
  subst hyx
  exact ⟨t, hy, rfl⟩

theorem exists_of_matches_word {w : List σ} {c c' : Cursor σ} (h : (word w).Matches c c') :
    ∃ t, c.rest = w ++ t ∧ c' = c.advance w t := by
  induction w generalizing c with
  | nil =>
      obtain rfl : c' = c := h
      exact ⟨c'.rest, rfl, rfl⟩
  | cons x w ih =>
      obtain ⟨m, hx, hw⟩ := h
      obtain ⟨t, ht, rfl⟩ := exists_of_matches_sym hx
      obtain ⟨t', ht', rfl⟩ := ih hw
      rw [Cursor.advance_rest] at ht'
      exact ⟨t', by rw [ht, ht', List.cons_append], Cursor.advance_advance _ _ _ _ _⟩

theorem matches_sym (x : σ) {t : List σ} {c : Cursor σ} (h : c.rest = x :: t) :
    (sym x).Matches c (c.advance [x] t) :=
  ⟨x, t, h, beq_self_eq_true x, rfl⟩

theorem matches_word (w : List σ) {t : List σ} :
    ∀ {c : Cursor σ}, c.rest = w ++ t → (word w).Matches c (c.advance w t) := by
  induction w with
  | nil =>
      intro c h
      obtain ⟨pos, rest, groups⟩ := c
      obtain rfl : rest = t := h
      rfl
  | cons x w ih =>
      intro c h
      refine ⟨c.advance [x] (w ++ t), matches_sym x h, ?_⟩
      rw [← Cursor.advance_advance c x w (w ++ t) t]
      exact ih rfl

/-- A fixed symbol in front of the input is consumed. -/
theorem run_sym_cons {α : Type} {x : σ} {t : List σ} {k : Cursor σ → Option α}
    (c : Cursor σ) (hc : c.rest = x :: t) :
    (sym x).run c k = k (c.advance [x] t) := by
  rw [sym, run, hc]
  simp

/-- A fixed symbol does not match any other. -/
theorem run_sym_of_head?_ne {α : Type} {x : σ} {k : Cursor σ → Option α} (c : Cursor σ)
    (hc : c.rest.head? ≠ some x) : (sym x).run c k = none := by
  rw [sym, run]
  split
  · rfl
  · rename_i y t hr
    rw [hr] at hc
    have hyx : y ≠ x := by simpa using hc
    simp [hyx]

/-- A fixed word in front of the input is consumed. -/
theorem run_word {α : Type} {t : List σ} {k : Cursor σ → Option α} :
    ∀ (w : List σ) (c : Cursor σ), c.rest = w ++ t →
      (word w).run c k = k (c.advance w t) := by
  intro w
  induction w with
  | nil =>
      intro c hc
      obtain ⟨pos, rest, groups⟩ := c
      simp_all [word, run, Cursor.advance]
  | cons x w ih =>
      intro c hc
      rw [word, run, run_sym_cons c (by simpa using hc), ih _ rfl, Cursor.advance_advance]

end Words

end Pattern

end Backtrack
