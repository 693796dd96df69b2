/-
# Partial and composed transfers

A library about byte channels whose primitive operations may transfer less than
they are asked to, over an arbitrary symbol type.

* `Source` is the receiving end of a channel together with the way its symbols
  will be segmented: a list of non-empty pieces.  `readSome` delivers (a part of)
  the next piece.  Every behaviour of a primitive that delivers between one symbol
  and as many as fit is the one of some segmentation, so a statement about every
  `Source` is a statement about every such behaviour.
* `read` is the composed operation that repeats the primitive until it has all the
  symbols asked for; `read_of_le` and `read_of_lt` say that it does not depend on the
  segmentation.
* `Reader` is a program that asks for symbols as it goes: a coroutine with a single
  effect.  `Reader.run` executes it against any stateful supplier.
* `Traced` is a rule set for programs with a state and a failure that take a word on the
  way, whether or not they come to their end.
* `Sink` is the sending end of a channel, which may break after some symbols.
* `writeAll` is the composed operation that repeats a partial write, advancing by
  the count each call reports.
* `chunks` cuts a list into pieces of at most a given length.
* `Drains` says of an operation that delivers symbols that it works through a word;
  `Drains.delivered` is what any sequence of calls delivers then.
-/
import Mathlib.Data.List.Basic

namespace Transfer

variable {σ : Type}

/-! ## Segmented sources -/

/-- The symbols still to come, cut into the pieces in which they will arrive. -/
structure Source (σ : Type) where
  pieces : List (List σ)
  nonempty : ∀ p ∈ pieces, p ≠ []

namespace Source

/-- The symbols still to come, whatever their segmentation. -/
def all (s : Source σ) : List σ := s.pieces.flatten

/-- The channel at its end. -/
def ended : Source σ := ⟨[], by simp⟩

/-- A source has nothing to deliver exactly when no piece is left. -/
theorem all_eq_nil_iff (s : Source σ) : s.all = [] ↔ s.pieces = [] := by
  obtain ⟨pieces, h⟩ := s
  cases pieces with
  | nil => simp [all]
  | cons p ps =>
      have hp := h p (by simp)
      simp [all, hp]

/-- Any sequence of symbols can be delivered. -/
theorem exists_all_eq (l : List σ) : ∃ s : Source σ, s.all = l := by
  by_cases hl : l = []
  · exact ⟨ended, hl.symm⟩
  · exact ⟨⟨[l], by simpa using hl⟩, List.flatten_singleton⟩

/-! ## The primitive read -/

/-- Deliver at most `n` symbols of the next piece.  An empty request succeeds with
nothing and consumes nothing; otherwise `none` is the end of the stream. -/
def readSome (n : ℕ) (s : Source σ) : Option (List σ × Source σ) :=
  match n, s with
  | 0, s => some ([], s)
  | _ + 1, ⟨[], _⟩ => none
  | n + 1, ⟨p :: ps, h⟩ =>
    if hp : p.length ≤ n + 1 then
      some (p, ⟨ps, fun q hq => h q (List.mem_cons_of_mem _ hq)⟩)
    else
      some (p.take (n + 1), ⟨p.drop (n + 1) :: ps, by
        intro q hq
        rcases List.mem_cons.mp hq with rfl | hq
        · simp only [ne_eq, List.drop_eq_nil_iff]
          exact hp
        · exact h q (List.mem_cons_of_mem _ hq)⟩)

/-- The primitive read delivers a non-empty prefix that fits. -/
theorem readSome_spec {n : ℕ} {s s' : Source σ} {got : List σ} (hn : 0 < n)
    (h : s.readSome n = some (got, s')) :
    got ≠ [] ∧ got.length ≤ n ∧ s.all = got ++ s'.all := by
  obtain ⟨pieces, hne⟩ := s
  cases n with
  | zero => omega
  | succ n =>
      cases pieces with
      | nil => simp [readSome] at h
      | cons p ps =>
          have hp := hne p (by simp)
          simp only [readSome] at h
          split at h
          · rename_i hle
            simp only [Option.some.injEq, Prod.mk.injEq] at h
            obtain ⟨rfl, rfl⟩ := h
            exact ⟨hp, hle, by simp [all]⟩
          · rename_i hlt
            simp only [Option.some.injEq, Prod.mk.injEq] at h
            obtain ⟨rfl, rfl⟩ := h
            refine ⟨?_, by rw [List.length_take]; omega, ?_⟩
            · simp [hp]
            · simp [all, ← List.append_assoc]

/-- What the primitive read delivers of the next piece. -/
theorem readSome_of_pieces {n : ℕ} {s : Source σ} {p : List σ} {ps : List (List σ)} (hn : 0 < n)
    (h : s.pieces = p :: ps) :
    ∃ s', s.readSome n = some (p.take n, s') ∧ (p.length ≤ n → s'.pieces = ps) := by
  obtain ⟨pieces, hne⟩ := s
  subst h
  cases n with
  | zero => omega
  | succ n =>
      by_cases hp : p.length ≤ n + 1
      · rw [readSome, dif_pos hp, List.take_of_length_le hp]
        exact ⟨_, rfl, fun _ => rfl⟩
      · rw [readSome, dif_neg hp]
        exact ⟨_, rfl, fun hle => absurd hle hp⟩

/-- The primitive read fails only at the end of the stream. -/
theorem readSome_eq_none_iff {n : ℕ} {s : Source σ} :
    s.readSome n = none ↔ 0 < n ∧ s.all = [] := by
  rw [all_eq_nil_iff]
  obtain ⟨pieces, hne⟩ := s
  cases n with
  | zero => simp [readSome]
  | succ n =>
      cases pieces with
      | nil => simp [readSome]
      | cons p ps =>
          simp only [readSome]
          split <;> simp

/-! ## The composed read -/

/-- Repeat the primitive until `n` symbols have been collected. -/
def readPieces : ℕ → List (List σ) → Option (List σ) × List (List σ)
  | 0, ps => (some [], ps)
  | _ + 1, [] => (none, [])
  | n + 1, p :: ps =>
    if p.length ≤ n + 1 then
      let r := readPieces (n + 1 - p.length) ps
      (r.1.map (p ++ ·), r.2)
    else
      (some (p.take (n + 1)), p.drop (n + 1) :: ps)

theorem readPieces_nonempty (ps : List (List σ)) :
    ∀ n, (∀ p ∈ ps, p ≠ []) → ∀ p ∈ (readPieces n ps).2, p ≠ [] := by
  induction ps with
  | nil => intro n _ p hp; cases n <;> simp [readPieces] at hp
  | cons q ps ih =>
      intro n h p hp
      cases n with
      | zero => exact h p hp
      | succ n =>
          rw [readPieces] at hp
          split at hp
          · exact ih _ (fun r hr => h r (List.mem_cons_of_mem _ hr)) p hp
          · rename_i hlt
            rcases List.mem_cons.mp hp with rfl | hp
            · simp only [ne_eq, List.drop_eq_nil_iff]
              exact hlt
            · exact h p (List.mem_cons_of_mem _ hp)

/-- Read exactly `n` symbols; `none` is the end of the stream, with everything that
was still there consumed. -/
def read (n : ℕ) (s : Source σ) : Option (List σ) × Source σ :=
  ((readPieces n s.pieces).1, ⟨(readPieces n s.pieces).2, readPieces_nonempty _ n s.nonempty⟩)

theorem readPieces_spec (ps : List (List σ)) :
    ∀ n, (n ≤ ps.flatten.length →
        (readPieces n ps).1 = some (ps.flatten.take n)
          ∧ (readPieces n ps).2.flatten = ps.flatten.drop n)
      ∧ (ps.flatten.length < n →
        (readPieces n ps).1 = none ∧ (readPieces n ps).2.flatten = []) := by
  induction ps with
  | nil =>
      intro n
      cases n with
      | zero => simp [readPieces]
      | succ n => simp [readPieces]
  | cons p ps ih =>
      intro n
      cases n with
      | zero => simp [readPieces]
      | succ n =>
          simp only [readPieces, List.flatten_cons, List.length_append]
          by_cases hp : p.length ≤ n + 1
          -- the piece is used up, and the others have to supply the rest
          · obtain ⟨hle, hlt⟩ := ih (n + 1 - p.length)
            simp only [hp, if_true]
            refine ⟨fun h => ?_, fun h => ?_⟩
            · obtain ⟨h1, h2⟩ := hle (by omega)
              rw [h1, h2, List.take_append, List.drop_append, List.take_of_length_le hp,
                List.drop_eq_nil_of_le hp]
              simp
            · obtain ⟨h1, h2⟩ := hlt (by omega)
              rw [h1, h2]
              simp
          · simp only [hp, if_false]
            refine ⟨fun _ => ?_, fun h => by omega⟩
            rw [List.take_append_of_le_length (by omega), List.drop_append_of_le_length (by omega)]
            simp

/-- With enough symbols to come, the composed read takes exactly the first `n`. -/
theorem read_of_le {n : ℕ} {s : Source σ} (h : n ≤ s.all.length) :
    (s.read n).1 = some (s.all.take n) ∧ (s.read n).2.all = s.all.drop n :=
  (readPieces_spec s.pieces n).1 h

/-- With too few symbols to come, the composed read hits the end of the stream. -/
theorem read_of_lt {n : ℕ} {s : Source σ} (h : s.all.length < n) :
    (s.read n).1 = none ∧ (s.read n).2.all = [] :=
  (readPieces_spec s.pieces n).2 h

/-- The composed read delivers as much as was asked for. -/
theorem length_of_read {n : ℕ} {s s' : Source σ} {w : List σ} (h : s.read n = (some w, s')) :
    w.length = n := by
  by_cases hle : n ≤ s.all.length
  · have hread := (read_of_le hle).1
    rw [h] at hread
    rw [Option.some.inj hread, List.length_take]
    omega
  · have hread := (read_of_lt (Nat.lt_of_not_le hle)).1
    rw [h] at hread
    cases hread

/-- What the composed read delivers was next. -/
theorem eq_append_of_read {n : ℕ} {s s' : Source σ} {w : List σ} (h : s.read n = (some w, s')) :
    s.all = w ++ s'.all := by
  by_cases hle : n ≤ s.all.length
  · obtain ⟨hread, hrest⟩ := read_of_le hle
    rw [h] at hread hrest
    rw [Option.some.inj hread, hrest, List.take_append_drop]
  · have hread := (read_of_lt (Nat.lt_of_not_le hle)).1
    rw [h] at hread
    cases hread

/-- The composed read on a stream that starts with a word of the requested length. -/
theorem read_append {s : Source σ} {w t : List σ} (h : s.all = w ++ t) :
    (s.read w.length).1 = some w ∧ (s.read w.length).2.all = t := by
  have hle : w.length ≤ s.all.length := by simp [h]
  obtain ⟨h1, h2⟩ := read_of_le hle
  rw [h1, h2, h]
  simp

end Source

/-! ## Programs that read -/

/-- A program that asks its environment for symbols: it returns, fails, or suspends
with a request and the rest of the program. -/
inductive Reader (σ ε α : Type) : Type where
  | ret (a : α) : Reader σ ε α
  | fail (e : ε) : Reader σ ε α
  | read (n : ℕ) (k : List σ → Reader σ ε α) : Reader σ ε α

namespace Reader

variable {ε α S : Type}

/-- Execute a program against a supplier; a failed request ends it. -/
def run (supply : S → ℕ → Except ε (List σ) × S) : Reader σ ε α → S → Except ε α × S
  | ret a, s => (.ok a, s)
  | fail e, s => (.error e, s)
  | read n k, s =>
    match supply s n with
    | (.error e, s') => (.error e, s')
    | (.ok w, s') => (k w).run supply s'

/-- One program after another; a failure ends both. -/
def bind {β : Type} : Reader σ ε α → (α → Reader σ ε β) → Reader σ ε β
  | ret a, f => f a
  | fail e, _ => fail e
  | read n k, f => read n fun w => (k w).bind f

/-- `supply` works through a stream: in a state related to a stream that starts with
`w`, a request for `w.length` symbols is answered by `w`, and the new state is
related to the rest. -/
def Supplies (supply : S → ℕ → Except ε (List σ) × S) (R : S → List σ → Prop) : Prop :=
  ∀ s w t, R s (w ++ t) → ∃ s', supply s w.length = (.ok w, s') ∧ R s' t

/-- As `Supplies`, as far as requests for at least one symbol are concerned. -/
def SuppliesSome (supply : S → ℕ → Except ε (List σ) × S) (R : S → List σ → Prop) : Prop :=
  ∀ s w t, w ≠ [] → R s (w ++ t) → ∃ s', supply s w.length = (.ok w, s') ∧ R s' t

theorem Supplies.suppliesSome {supply : S → ℕ → Except ε (List σ) × S} {R : S → List σ → Prop}
    (h : Supplies supply R) : SuppliesSome supply R :=
  fun s w t _ => h s w t

/-- A request that is answered continues with the answer. -/
theorem run_read_of_ok {supply : S → ℕ → Except ε (List σ) × S} {n : ℕ}
    {k : List σ → Reader σ ε α} {s s' : S} {w : List σ} (h : supply s n = (.ok w, s')) :
    (read n k).run supply s = (k w).run supply s' := by
  rw [run, h]

/-- A program whose first action is a request returns only if the request is answered. -/
theorem exists_of_run_read_eq_ok {supply : S → ℕ → Except ε (List σ) × S} {n : ℕ}
    {k : List σ → Reader σ ε α} {s t : S} {a : α}
    (h : (read n k).run supply s = (.ok a, t)) :
    ∃ w s', supply s n = (.ok w, s') ∧ (k w).run supply s' = (.ok a, t) := by
  rw [run] at h
  rcases hs : supply s n with ⟨_ | w, s'⟩
  · simp [hs] at h
  · exact ⟨w, s', rfl, by simpa [hs] using h⟩

/-- A property of states that every request keeps is kept by a program. -/
theorem run_invariant {supply : S → ℕ → Except ε (List σ) × S} (Inv : S → Prop)
    (h : ∀ s n, Inv s → Inv (supply s n).2) (x : Reader σ ε α) :
    ∀ s, Inv s → Inv (x.run supply s).2 := by
  induction x with
  | ret a => exact fun s hs => hs
  | fail e => exact fun s hs => hs
  | read n k ih =>
      intro s hs
      have hnext := h s n hs
      rw [run]
      rcases hread : supply s n with ⟨e | w, s'⟩
      · rw [hread] at hnext
        exact hnext
      · rw [hread] at hnext
        exact ih w s' hnext

/-! ### Programs that run out of symbols -/

/-- Working through `w`, the program asks for more symbols than are left. -/
def starves : Reader σ ε α → List σ → Bool
  | ret _, _ => false
  | fail _, _ => false
  | read n k, w => decide (w.length < n) || (k (w.take n)).starves (w.drop n)

/-- Working through a word, the program comes to a request for `n` symbols with the word `w`
left, which is too short. -/
inductive Stuck : Reader σ ε α → List σ → ℕ → (List σ → Reader σ ε α) → List σ → Prop
  | here {n : ℕ} {k : List σ → Reader σ ε α} {w : List σ} (h : w.length < n) :
      Stuck (read n k) w n k w
  | next {m n : ℕ} {k k' : List σ → Reader σ ε α} {v w w' : List σ} (h : v.length = m)
      (t : Stuck (k v) w n k' w') : Stuck (read m k) (v ++ w) n k' w'

theorem exists_stuck_of_starves (x : Reader σ ε α) :
    ∀ {w : List σ}, x.starves w = true → ∃ n k w', x.Stuck w n k w' := by
  induction x with
  | ret a =>
      intro w h
      cases h
  | fail e =>
      intro w h
      cases h
  | read n k ih =>
      intro w h
      by_cases hlt : w.length < n
      · exact ⟨n, k, w, .here hlt⟩
      · rw [starves, decide_eq_false hlt, Bool.false_or] at h
        obtain ⟨m, k', w', hstuck⟩ := ih _ h
        have hnext : (read n k).Stuck (w.take n ++ w.drop n) m k' w' :=
          .next (by rw [List.length_take]; omega) hstuck
        rw [List.take_append_drop] at hnext
        exact ⟨m, k', w', hnext⟩

theorem Stuck.length_lt {x : Reader σ ε α} {n : ℕ} {k : List σ → Reader σ ε α} {w w' : List σ}
    (h : x.Stuck w n k w') : w'.length < n := by
  induction h with
  | here h => exact h
  | next _ _ ih => exact ih

theorem Stuck.length_le {x : Reader σ ε α} {n : ℕ} {k : List σ → Reader σ ε α} {w w' : List σ}
    (h : x.Stuck w n k w') : w'.length ≤ w.length := by
  induction h with
  | here h => exact Nat.le_refl _
  | next _ _ ih =>
      rw [List.length_append]
      omega

/-- No more than `m` symbols are ever asked for. -/
def Within : Reader σ ε α → ℕ → Prop
  | ret _, _ => True
  | fail _, _ => True
  | read n k, m => n ≤ m ∧ ∀ w : List σ, w.length = n → (k w).Within (m - n)

theorem not_starves_of_within (x : Reader σ ε α) :
    ∀ {m : ℕ} {w : List σ}, x.Within m → m ≤ w.length → x.starves w = false := by
  induction x with
  | ret a => exact fun _ _ => rfl
  | fail e => exact fun _ _ => rfl
  | read n k ih =>
      intro m w h hm
      obtain ⟨hn, hk⟩ := h
      have hlen : (w.take n).length = n := by
        rw [List.length_take]
        omega
      have hrest := ih (w.take n) (hk _ hlen)
        (show m - n ≤ (w.drop n).length by rw [List.length_drop]; omega)
      rw [starves, hrest, Bool.or_false]
      exact decide_eq_false (by omega)

/-- What lies behind the symbols that can be asked for does not matter. -/
theorem not_starves_take {x : Reader σ ε α} {m n : ℕ} {w : List σ} (h : x.Within m) (hm : m ≤ n)
    (hw : x.starves w = false) : x.starves (w.take n) = false := by
  by_cases hn : n ≤ w.length
  · apply not_starves_of_within x h
    rw [List.length_take]
    omega
  · rwa [List.take_of_length_le (by omega)]

section Supplied

variable {supply : S → ℕ → Except ε (List σ) × S} {R : S → List σ → Prop}

/-- A program that does not run out of symbols leaves its supplier somewhere in the word. -/
theorem exists_run_of_not_starves (hsup : Supplies supply R) (x : Reader σ ε α) :
    ∀ {s : S} {w : List σ}, R s w → x.starves w = false → ∃ w', R (x.run supply s).2 w' := by
  induction x with
  | ret a => exact fun hs _ => ⟨_, hs⟩
  | fail e => exact fun hs _ => ⟨_, hs⟩
  | read n k ih =>
      intro s w hs h
      rw [starves, Bool.or_eq_false_iff, decide_eq_false_iff_not] at h
      have hlen : (w.take n).length = n := by
        rw [List.length_take]
        omega
      obtain ⟨s', hread, hs'⟩ := hsup s (w.take n) (w.drop n) (by rwa [List.take_append_drop])
      rw [hlen] at hread
      rw [run_read_of_ok hread]
      exact ih _ hs' h.2

/-- A program that gets stuck gets there, whatever its supplier. -/
theorem run_of_stuck (hsup : Supplies supply R) {x : Reader σ ε α} {n : ℕ}
    {k : List σ → Reader σ ε α} {w w' : List σ} (h : x.Stuck w n k w') :
    ∀ {s : S}, R s w → ∃ s', x.run supply s = (read n k).run supply s' ∧ R s' w' := by
  induction h with
  | here h => exact fun hs => ⟨_, rfl, hs⟩
  | next hv t ih =>
      intro s hs
      obtain ⟨s₁, hread, hs₁⟩ := hsup _ _ _ hs
      rw [hv] at hread
      obtain ⟨s', hrun, hs'⟩ := ih hs₁
      exact ⟨s', (run_read_of_ok hread).trans hrun, hs'⟩

end Supplied

/-! ### Two runs -/

/-- Given words that are related, the second program fails whenever the first one does. -/
inductive Follows (B : List σ → List σ → Prop) (F : ε → Prop) :
    Reader σ ε α → Reader σ ε α → Prop
  | ret (a : α) (y : Reader σ ε α) : Follows B F (ret a) y
  | fail {e e' : ε} (h : F e → F e') : Follows B F (fail e) (fail e')
  | read (n : ℕ) {k k' : List σ → Reader σ ε α}
      (h : ∀ w w', B w w' → Follows B F (k w) (k' w')) : Follows B F (read n k) (read n k')

/-- The answers of a supplier in two states. -/
inductive Answers (B : List σ → List σ → Prop) (Rel : S → S → Prop) :
    Except ε (List σ) × S → Except ε (List σ) × S → Prop
  | error {e : ε} {s s' : S} : Answers B Rel (.error e, s) (.error e, s')
  | ok {w w' : List σ} {s s' : S} (hw : B w w') (hs : Rel s s') :
      Answers B Rel (.ok w, s) (.ok w', s')

/-- **Failures are passed on** from a run to a related one. -/
theorem Follows.run {supply : S → ℕ → Except ε (List σ) × S} {B : List σ → List σ → Prop}
    {F : ε → Prop} (Rel : S → S → Prop)
    (hsupply : ∀ s s', Rel s s' → ∀ n, Answers B Rel (supply s n) (supply s' n))
    {x y : Reader σ ε α} (h : Follows B F x y) :
    ∀ {s s' : S} {e : ε}, Rel s s' → (x.run supply s).1 = .error e → F e →
      ∃ e', (y.run supply s').1 = .error e' ∧ F e' := by
  induction h with
  | ret a y =>
      intro s s' e _ hx
      cases hx
  | fail h =>
      intro s s' e _ hx he
      cases hx
      exact ⟨_, rfl, h he⟩
  | read n h ih =>
      intro s s' e hs hx he
      have hanswers := hsupply s s' hs n
      rw [Reader.run] at hx ⊢
      generalize supply s n = r at hanswers hx
      generalize supply s' n = r' at hanswers ⊢
      cases hanswers with
      | error =>
          cases hx
          exact ⟨_, rfl, he⟩
      | ok hw hs' => exact ih _ _ hw hs' hx he

end Reader

/-! ## Programs with a state and a failure -/

section Stateful

variable {ε α β S : Type} {x : ExceptT ε (StateM S) α} {f : α → ExceptT ε (StateM S) β}

theorem bind_of_ok {s s' : S} {a : α} (h : x s = (.ok a, s')) : (x >>= f) s = f a s' := by
  simp only [bind, ExceptT.bind, ExceptT.mk, StateT.bind]
  rw [h]
  rfl

theorem bind_of_error {s s' : S} {e : ε} (h : x s = (.error e, s')) :
    (x >>= f) s = (.error e, s') := by
  simp only [bind, ExceptT.bind, ExceptT.mk, StateT.bind]
  rw [h]
  rfl

/-- A sequence depends on the answer of its first program only. -/
theorem bind_of_eq {y : ExceptT ε (StateM S) α} {s t : S} (h : x s = y t) :
    (x >>= f) s = (y >>= f) t := by
  rcases hy : y t with ⟨e | a, t'⟩
  · rw [bind_of_error (h.trans hy), bind_of_error hy]
  · rw [bind_of_ok (h.trans hy), bind_of_ok hy]

theorem tryCatch_of_ok {h : ε → ExceptT ε (StateM S) α} {s s' : S} {a : α}
    (hx : x s = (.ok a, s')) : tryCatch x h s = (.ok a, s') := by
  simp only [tryCatch, tryCatchThe, MonadExceptOf.tryCatch, ExceptT.tryCatch, ExceptT.mk, bind,
    StateT.bind]
  rw [hx]
  rfl

theorem tryCatch_of_error {h : ε → ExceptT ε (StateM S) α} {s s' : S} {e : ε}
    (hx : x s = (.error e, s')) : tryCatch x h s = h e s' := by
  simp only [tryCatch, tryCatchThe, MonadExceptOf.tryCatch, ExceptT.tryCatch, ExceptT.mk, bind,
    StateT.bind]
  rw [hx]

theorem bind_get {f : S → ExceptT ε (StateM S) β} {s : S} : (get >>= f) s = f s s := rfl

/-- A relation between a state, the word taken on the way, and the state reached: the ways
can be joined, and where a way ends one may stay with nothing taken. -/
structure Trace (T : S → List σ → S → Prop) : Prop where
  stay : ∀ {s w s'}, T s w s' → T s' [] s'
  trans : ∀ {s w s' w' s''}, T s w s' → T s' w' s'' → T s (w ++ w') s''

/-- The run of `x` from `s` takes some word, whether it returns or fails; if it returns `a`,
the word is as `Q a` says. -/
def Traced (T : S → List σ → S → Prop) (s : S) (x : ExceptT ε (StateM S) α)
    (Q : α → List σ → Prop) : Prop :=
  ∃ w, T s w (x s).2 ∧ ∀ a, (x s).1 = .ok a → Q a w

variable {T : S → List σ → S → Prop} {s : S} {Q : α → List σ → Prop}

theorem Traced.of_ok {s' : S} {a : α} {w : List σ} (hx : x s = (.ok a, s')) (hw : T s w s')
    (hQ : Q a w) : Traced T s x Q := by
  refine ⟨w, by rw [hx]; exact hw, fun b hb => ?_⟩
  rw [hx] at hb
  cases hb
  exact hQ

theorem Traced.of_error {s' : S} {e : ε} {w : List σ} (hx : x s = (.error e, s'))
    (hw : T s w s') : Traced T s x Q := by
  refine ⟨w, by rw [hx]; exact hw, fun b hb => ?_⟩
  rw [hx] at hb
  cases hb

/-- The rule for a sequence. -/
theorem Traced.bind (hT : Trace T) {Q' : β → List σ → Prop} (h : Traced T s x Q)
    (hf : ∀ a w s', x s = (.ok a, s') → T s w s' → Q a w →
      Traced T s' (f a) fun b w' => Q' b (w ++ w')) :
    Traced T s (x >>= f) Q' := by
  obtain ⟨w, hw, hQ⟩ := h
  rcases hx : x s with ⟨e | a, s'⟩
  · rw [hx] at hw
    exact Traced.of_error (bind_of_error hx) hw
  · rw [hx] at hw hQ
    obtain ⟨w', hw', hQ'⟩ := hf a w s' hx hw (hQ a rfl)
    refine ⟨w ++ w', ?_, ?_⟩
    · rw [bind_of_ok hx]
      exact hT.trans hw hw'
    · rw [bind_of_ok hx]
      exact hQ'

/-- The rule for a program that reads: if every request takes what it returns, the program
returns what it would return for the word it took. -/
theorem Traced.run (hT : Trace T) {supply : ℕ → ExceptT ε (StateM S) (List σ)}
    {exactly : List σ → ℕ → Except ε (List σ) × List σ} (hexactly : Reader.Supplies exactly Eq)
    (prog : Reader σ ε α) :
    ∀ {s}, T s [] s → (∀ {w s'}, T s w s' → ∀ n,
      Traced T s' (supply n) fun got w => got = w ∧ w.length = n) →
    Traced T s (prog.run fun s n => supply n s) fun a w =>
      ∀ t, prog.run exactly (w ++ t) = (.ok a, t) := by
  induction prog with
  | ret a =>
      intro s hs _
      exact Traced.of_ok rfl hs fun t => rfl
  | fail e =>
      intro s hs _
      exact Traced.of_error rfl hs
  | read n k ih =>
      intro s hs hsupply
      obtain ⟨w, hw, hgot⟩ := hsupply hs n
      rcases hx : supply n s with ⟨e | got, s'⟩
      · rw [hx] at hw
        refine Traced.of_error (e := e) ?_ hw
        rw [Reader.run, hx]
      · rw [hx] at hw hgot
        obtain ⟨rfl, rfl⟩ := hgot got rfl
        -- the request took what it returned, so the rest runs where the word leaves it
        obtain ⟨w', hw', hQ⟩ := ih got (hT.stay hw) fun h n => hsupply (hT.trans hw h) n
        refine ⟨got ++ w', ?_, fun a ha t => ?_⟩
        · rw [Reader.run_read_of_ok hx]
          exact hT.trans hw hw'
        · rw [Reader.run_read_of_ok hx] at ha
          obtain ⟨t', hread, rfl⟩ := hexactly _ got (w' ++ t) rfl
          rw [List.append_assoc, Reader.run_read_of_ok hread]
          exact hQ a ha t

end Stateful

/-! ## The composed write -/

section Write

variable {ε S : Type}

/-- Repeat a partial write on at most `chunk` of the remaining symbols, advancing by
the count it reports, until everything is counted as written or a call reports no
progress. -/
def writeAll (chunk : ℕ) (writeSome : S → List σ → Except ε ℕ × S) (st : S) (buf : List σ) :
    Except ε Unit × S :=
  match writeSome st (buf.take chunk) with
  | (.error e, st') => (.error e, st')
  | (.ok k, st') =>
    -- the count is believed, even where it exceeds what was offered
    if _h : k = 0 ∨ buf.length ≤ k then (.ok (), st')
    else writeAll chunk writeSome st' (buf.drop k)
termination_by buf.length
decreasing_by
  rw [List.length_drop]
  omega

/-- A partial write that succeeds ends the composed one, or is followed by the rest. -/
theorem writeAll_of_ok {chunk : ℕ} {writeSome : S → List σ → Except ε ℕ × S} {st st' : S}
    {buf : List σ} {k : ℕ} (h : writeSome st (buf.take chunk) = (.ok k, st')) :
    writeAll chunk writeSome st buf
      = if k = 0 ∨ buf.length ≤ k then (.ok (), st')
        else writeAll chunk writeSome st' (buf.drop k) := by
  rw [writeAll, h]
  rfl

end Write

/-! ## Sinks -/

/-- The sending end of a channel: what has been transmitted, and how many more symbols
it takes before it breaks, if it does. -/
structure Sink (σ : Type) where
  sent : List σ
  room : Option ℕ

namespace Sink

/-- A channel on which nothing has been sent and that does not break. -/
def healthy : Sink σ := ⟨[], none⟩

/-- The composed write on the channel itself: whether everything was transmitted. -/
def write (w : List σ) (s : Sink σ) : Bool × Sink σ :=
  match s.room with
  | none => (true, { s with sent := s.sent ++ w })
  | some r =>
    if w.length ≤ r then (true, ⟨s.sent ++ w, some (r - w.length)⟩)
    -- a part of the word is on the channel when it breaks
    else (false, ⟨s.sent ++ w.take r, some 0⟩)

theorem write_of_healthy {w : List σ} {s : Sink σ} (h : s.room = none) :
    s.write w = (true, ⟨s.sent ++ w, none⟩) := by
  rw [write, h]

end Sink

/-! ## Chunks -/

/-- Cut a list into pieces of length `n`, the last one possibly shorter. -/
def chunks (n : ℕ) (l : List σ) : List (List σ) :=
  if _h : l = [] ∨ n = 0 then [] else l.take n :: chunks n (l.drop n)
termination_by l.length
decreasing_by
  have hpos : 0 < l.length := List.length_pos_of_ne_nil (by tauto)
  rw [List.length_drop]
  omega

@[simp] theorem chunks_nil (n : ℕ) : chunks n ([] : List σ) = [] := by
  rw [chunks]
  simp

theorem chunks_of_ne_nil {n : ℕ} (hn : 0 < n) {l : List σ} (hl : l ≠ []) :
    chunks n l = l.take n :: chunks n (l.drop n) := by
  rw [chunks, dif_neg]
  rintro (h | h)
  · exact hl h
  · omega

/-- The induction rule for chunks: the empty list, and a list whose rest is known. -/
theorem chunks_induction {n : ℕ} (hn : 0 < n) {P : List σ → Prop} (nil : P [])
    (step : ∀ l, l ≠ [] → P (l.drop n) → P l) : ∀ l, P l := by
  suffices key : ∀ k (l : List σ), l.length < k → P l from fun l => key _ l (Nat.lt_succ_self _)
  intro k
  induction k with
  | zero => intro l hlt; omega
  | succ k ih =>
      intro l hlt
      by_cases hl : l = []
      · rw [hl]
        exact nil
      · have hpos := List.length_pos_of_ne_nil hl
        exact step l hl (ih _ (by rw [List.length_drop]; omega))

theorem flatten_chunks {n : ℕ} (hn : 0 < n) (l : List σ) : (chunks n l).flatten = l := by
  induction l using chunks_induction hn with
  | nil => simp
  | step l hl ih =>
      rw [chunks_of_ne_nil hn hl, List.flatten_cons, ih, List.take_append_drop]

/-- The pieces are not empty and fit. -/
theorem of_mem_chunks {n : ℕ} (hn : 0 < n) (l : List σ) :
    ∀ x ∈ chunks n l, x ≠ [] ∧ x.length ≤ n := by
  induction l using chunks_induction hn with
  | nil => simp
  | step l hl ih =>
      rw [chunks_of_ne_nil hn hl]
      intro x hx
      rcases List.mem_cons.mp hx with rfl | hx
      · refine ⟨?_, List.length_take_le n l⟩
        rw [ne_eq, List.take_eq_nil_iff, not_or]
        exact ⟨by omega, hl⟩
      · exact ih x hx

/-- How many pieces there are. -/
theorem length_chunks {n : ℕ} (hn : 0 < n) (l : List σ) :
    (chunks n l).length = (l.length + n - 1) / n := by
  induction l using chunks_induction hn with
  | nil =>
      rw [chunks_nil, List.length_nil, List.length_nil, Nat.zero_add,
        Nat.div_eq_of_lt (by omega)]
  | step l hl ih =>
      -- rounding up: a full piece adds one to the quotient, the last one makes it one
      have hpos := List.length_pos_of_ne_nil hl
      rw [chunks_of_ne_nil hn hl, List.length_cons, ih, List.length_drop]
      by_cases hle : l.length ≤ n
      · have h1 : (l.length - n + n - 1) / n = 0 := Nat.div_eq_of_lt (by omega)
        have h2 : (l.length + n - 1) / n = 1 := by
          apply Nat.div_eq_of_lt_le <;> omega
        rw [h1, h2]
      · have h : l.length + n - 1 = (l.length - n + n - 1) + n := by omega
        rw [h, Nat.add_div_right _ hn]

/-! ## Draining -/

section Drain

variable {ε S : Type}

/-- Receive several times in a row, with room for some symbols each time. -/
def receiveAll (recv : ℕ → S → Except ε (List σ) × S) :
    List ℕ → S → List (Except ε (List σ)) × S
  | [], s => ([], s)
  | n :: ns, s =>
    let r := recv n s
    let rs := receiveAll recv ns r.2
    (r.1 :: rs.1, rs.2)

/-- The symbols that were received. -/
def delivered (results : List (Except ε (List σ))) : List σ :=
  results.flatMap fun
    | .ok got => got
    | .error _ => []

/-- `recv` works through what is pending, in the states in question: without room it does
nothing, and with room it delivers some of it as long as there is any. -/
structure Drains (recv : ℕ → S → Except ε (List σ) × S) (Inv : S → Prop)
    (pending : S → List σ) : Prop where
  idle : ∀ s, Inv s → recv 0 s = (.ok [], s)
  step : ∀ s n, Inv s → 0 < n → (pending s = [] ∧ ∃ e, recv n s = (.error e, s)) ∨
    ∃ got s', got ≠ [] ∧ recv n s = (.ok got, s') ∧ Inv s' ∧ pending s = got ++ pending s'

variable {recv : ℕ → S → Except ε (List σ) × S} {Inv : S → Prop} {pending : S → List σ}

theorem delivered_cons_of_ok {n : ℕ} {ns : List ℕ} {s s' : S} {got : List σ}
    (h : recv n s = (.ok got, s')) :
    delivered (receiveAll recv (n :: ns) s).1 = got ++ delivered (receiveAll recv ns s').1 := by
  simp [receiveAll, delivered, h]

theorem delivered_cons_of_error {n : ℕ} {ns : List ℕ} {s s' : S} {e : ε}
    (h : recv n s = (.error e, s')) :
    delivered (receiveAll recv (n :: ns) s).1 = delivered (receiveAll recv ns s').1 := by
  simp [receiveAll, delivered, h]

/-- **Draining.**  Calls with any sizes deliver what is pending from its first symbol on, and
all of it when there are as many calls with room as symbols. -/
theorem Drains.delivered (h : Drains recv Inv pending) (sizes : List ℕ) :
    ∀ s, Inv s → Transfer.delivered (receiveAll recv sizes s).1 <+: pending s
      ∧ ((pending s).length ≤ (sizes.filter (0 < ·)).length →
        Transfer.delivered (receiveAll recv sizes s).1 = pending s) := by
  induction sizes with
  | nil =>
      intro s _
      refine ⟨List.nil_prefix, fun hle => ?_⟩
      exact (List.eq_nil_of_length_eq_zero (Nat.le_zero.mp hle)).symm
  | cons n sizes ih =>
      intro s hs
      by_cases hn : n = 0
      · subst hn
        rw [delivered_cons_of_ok (h.idle s hs), List.nil_append,
          List.filter_cons_of_neg (by simp)]
        exact ih s hs
      · have hpos := Nat.pos_of_ne_zero hn
        rw [List.filter_cons_of_pos (by simpa using hpos), List.length_cons]
        rcases h.step s n hs hpos with ⟨hnil, e, hrecv⟩ | ⟨got, s', hne, hrecv, hs', hpending⟩
        · -- at the end the calls that follow deliver nothing either
          have hpre := (ih s hs).1
          rw [hnil, List.prefix_nil] at hpre
          rw [delivered_cons_of_error hrecv, hnil, hpre]
          exact ⟨List.prefix_rfl, fun _ => rfl⟩
        · obtain ⟨hpre, hall⟩ := ih s' hs'
          rw [delivered_cons_of_ok hrecv, hpending]
          refine ⟨(List.prefix_append_right_inj got).mpr hpre, fun hle => ?_⟩
          have hlength := List.length_pos_of_ne_nil hne
          rw [List.length_append] at hle
          rw [hall (by omega)]

end Drain

end Transfer
