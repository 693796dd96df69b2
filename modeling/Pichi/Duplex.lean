/-
# Two programs over a duplex channel

A library about two sequential programs that talk to each other over a channel with two
directions, each of them a queue.  A program reads a given number of symbols, waiting for
them, or writes a word; both are composed of partial transfers, of which each moves some of
the symbols.

* `Step` is the system with transfers of any size and the programs taking turns in any
  order.
* `Settles` says that the system, from a given configuration, comes to a given end however it
  is scheduled and segmented: there is a bound on the length of its runs, and a run that
  cannot go on is at that end.
* `settles_of_reaches`: it is enough to find one schedule that leads to the end.  With
  transfers of one symbol (`Tick`) each program has at most one move and the moves of the two
  programs commute, so that all schedules are equally long and lead to the same end.
-/
import Mathlib.Data.List.Basic
import Pichi.Transfer

namespace Duplex

/-! ## Programs -/

/-- A program over a channel: it returns, fails, reads a number of symbols, or writes a
word. -/
inductive Proc (σ ε α : Type) : Type where
  | ret (a : α) : Proc σ ε α
  | fail (e : ε) : Proc σ ε α
  | read (n : ℕ) (k : List σ → Proc σ ε α) : Proc σ ε α
  | write (w : List σ) (k : Proc σ ε α) : Proc σ ε α

namespace Proc

variable {σ ε ε' α β : Type}

/-- One program after another; a failure ends both. -/
def bind : Proc σ ε α → (α → Proc σ ε β) → Proc σ ε β
  | ret a, f => f a
  | fail e, _ => fail e
  | read n k, f => read n fun w => (k w).bind f
  | write w k, f => write w (k.bind f)

instance : Monad (Proc σ ε) where
  pure := ret
  bind := bind

/-- The result of a program, failed or not. -/
def attempt : Proc σ ε α → Proc σ ε' (Except ε α)
  | ret a => ret (.ok a)
  | fail e => ret (.error e)
  | read n k => read n fun w => (k w).attempt
  | write w k => write w k.attempt

/-- A program that only reads. -/
def ofReader : Transfer.Reader σ ε α → Proc σ ε α
  | .ret a => ret a
  | .fail e => fail e
  | .read n k => read n fun w => ofReader (k w)

/-- Read `n` symbols. -/
def receive (n : ℕ) : Proc σ ε (List σ) := read n ret

/-- Write a word. -/
def send (w : List σ) : Proc σ ε Unit := write w (ret ())

@[simp] theorem ret_bind (a : α) (f : α → Proc σ ε β) : (ret a >>= f) = f a := rfl

@[simp] theorem pure_bind (a : α) (f : α → Proc σ ε β) : ((pure a : Proc σ ε α) >>= f) = f a :=
  rfl

@[simp] theorem fail_bind (e : ε) (f : α → Proc σ ε β) : (fail e >>= f) = fail e := rfl

@[simp] theorem read_bind (n : ℕ) (k : List σ → Proc σ ε α) (f : α → Proc σ ε β) :
    (read n k >>= f) = read n fun w => k w >>= f := rfl

@[simp] theorem write_bind (w : List σ) (k : Proc σ ε α) (f : α → Proc σ ε β) :
    (write w k >>= f) = write w (k >>= f) := rfl

@[simp] theorem receive_bind (n : ℕ) (f : List σ → Proc σ ε β) :
    (receive n >>= f) = read n f := rfl

@[simp] theorem send_bind (w : List σ) (f : Unit → Proc σ ε β) :
    (send w >>= f) = write w (f ()) := rfl

@[simp] theorem attempt_ret (a : α) :
    (ret a : Proc σ ε α).attempt = (ret (.ok a) : Proc σ ε' (Except ε α)) := rfl

@[simp] theorem attempt_fail (e : ε) :
    (fail e : Proc σ ε α).attempt = (ret (.error e) : Proc σ ε' (Except ε α)) := rfl

@[simp] theorem attempt_read (n : ℕ) (k : List σ → Proc σ ε α) :
    ((read n k).attempt : Proc σ ε' (Except ε α)) = read n fun w => (k w).attempt := rfl

@[simp] theorem attempt_write (w : List σ) (k : Proc σ ε α) :
    ((write w k).attempt : Proc σ ε' (Except ε α)) = write w k.attempt := rfl

/-- An attempt of one program after another goes on only if the first one returns. -/
theorem attempt_bind (x : Proc σ ε α) (f : α → Proc σ ε β) :
    ((x >>= f).attempt : Proc σ ε' (Except ε β)) = x.attempt >>= fun
      | .ok a => (f a).attempt
      | .error e => ret (.error e) := by
  induction x with
  | ret a => rfl
  | fail e => rfl
  | read n k ih =>
      simp only [read_bind, attempt_read]
      congr 1
      funext w
      exact ih w
  | write w k ih =>
      simp only [write_bind, attempt_write]
      rw [ih]

theorem bind_assoc {γ : Type} (x : Proc σ ε α) (f : α → Proc σ ε β) (g : β → Proc σ ε γ) :
    (x >>= f >>= g) = x >>= fun a => f a >>= g := by
  induction x with
  | ret a => rfl
  | fail e => rfl
  | read n k ih =>
      simp only [read_bind]
      congr 1
      funext w
      exact ih w
  | write w k ih =>
      simp only [write_bind]
      rw [ih]

/-! ## A program on its own -/

/-- What becomes of a program that finds the symbols `u` and nothing after them; it may wait
for more. -/
def outcome : Proc σ ε α → List σ → Option (Except ε α)
  | ret a, _ => some (.ok a)
  | fail e, _ => some (.error e)
  | read n k, u => if n ≤ u.length then (k (u.take n)).outcome (u.drop n) else none
  | write _ k, u => k.outcome u

theorem outcome_read_append (k : List σ → Proc σ ε α) (w u : List σ) :
    (read w.length k).outcome (w ++ u) = (k w).outcome u := by
  rw [outcome, if_pos (by simp), List.take_left, List.drop_left]

/-- The program in front of a supplier of symbols; what it writes is forgotten. -/
def run {S : Type} (supply : S → ℕ → Except ε (List σ) × S) :
    Proc σ ε α → S → Except ε α × S
  | ret a, s => (.ok a, s)
  | fail e, s => (.error e, s)
  | read n k, s =>
    match supply s n with
    | (.error e, s') => (.error e, s')
    | (.ok w, s') => (k w).run supply s'
  | write _ k, s => k.run supply s

/-- The program returns `a` and leaves the symbols `r` when it finds the symbols `u`. -/
def Yields : Proc σ ε α → List σ → α → List σ → Prop
  | ret b, u, a, r => b = a ∧ u = r
  | fail _, _, _, _ => False
  | read n k, u, a, r => n ≤ u.length ∧ (k (u.take n)).Yields (u.drop n) a r
  | write _ k, u, a, r => k.Yields u a r

theorem yields_ret_iff {a b : α} {u r : List σ} :
    (ret b : Proc σ ε α).Yields u a r ↔ b = a ∧ u = r := Iff.rfl

theorem yields_write_iff {w : List σ} {k : Proc σ ε α} {u r : List σ} {a : α} :
    (write w k).Yields u a r ↔ k.Yields u a r := Iff.rfl

theorem yields_read_iff {n : ℕ} {k : List σ → Proc σ ε α} {u r : List σ} {a : α} :
    (read n k).Yields u a r ↔ ∃ w t, u = w ++ t ∧ w.length = n ∧ (k w).Yields t a r := by
  constructor
  · rintro ⟨hn, h⟩
    exact ⟨u.take n, u.drop n, (List.take_append_drop n u).symm, by simp [hn], h⟩
  · rintro ⟨w, t, rfl, rfl, h⟩
    refine ⟨by simp, ?_⟩
    rw [List.take_left, List.drop_left]
    exact h

/-- One program after another. -/
theorem yields_bind_iff {x : Proc σ ε α} {f : α → Proc σ ε β} {u r : List σ} {b : β} :
    (x >>= f).Yields u b r ↔ ∃ a t, x.Yields u a t ∧ (f a).Yields t b r := by
  induction x generalizing u with
  | ret a =>
      constructor
      · intro h
        exact ⟨a, u, ⟨rfl, rfl⟩, h⟩
      · rintro ⟨a, t, ⟨rfl, rfl⟩, h⟩
        exact h
  | fail e =>
      constructor
      · intro h
        cases h
      · rintro ⟨a, t, h, -⟩
        cases h
  | read n k ih =>
      constructor
      · rintro ⟨hn, h⟩
        obtain ⟨a, t, hx, hf⟩ := (ih _).mp h
        exact ⟨a, t, ⟨hn, hx⟩, hf⟩
      · rintro ⟨a, t, ⟨hn, hx⟩, hf⟩
        exact ⟨hn, (ih _).mpr ⟨a, t, hx, hf⟩⟩
  | write w k ih => exact ih

/-- What a program leaves is the end of what it finds. -/
theorem exists_append_of_yields {x : Proc σ ε α} {u r : List σ} {a : α} (h : x.Yields u a r) :
    ∃ used, u = used ++ r := by
  induction x generalizing u with
  | ret b => exact ⟨[], h.2⟩
  | fail e => cases h
  | read n k ih =>
      obtain ⟨used, hused⟩ := ih _ h.2
      refine ⟨u.take n ++ used, ?_⟩
      rw [List.append_assoc, ← hused, List.take_append_drop]
  | write w k ih => exact ih h

/-- A program in front of a supplier that works through the symbols `view` shows. -/
theorem yields_of_run {S : Type} {supply : S → ℕ → Except ε (List σ) × S} {view : S → List σ}
    (hsupply : ∀ s n w s', supply s n = (.ok w, s') → w.length = n ∧ view s = w ++ view s')
    (x : Proc σ ε α) {a : α} :
    ∀ {s s' : S}, x.run supply s = (.ok a, s') → x.Yields (view s) a (view s') := by
  induction x with
  | ret b =>
      intro s s' h
      cases h
      exact ⟨rfl, rfl⟩
  | fail e =>
      intro s s' h
      cases h
  | read n k ih =>
      intro s s' h
      rw [run] at h
      rcases hs : supply s n with ⟨e | w, t⟩
      · rw [hs] at h
        cases h
      · rw [hs] at h
        obtain ⟨hn, hview⟩ := hsupply s n w t hs
        exact yields_read_iff.mpr ⟨w, view t, hview, hn, ih w h⟩
  | write w k ih =>
      intro s s' h
      exact ih h

/-! ## Partial transfers -/

/-- A move of a program in front of the symbols `u` it can read: the program after it, the
symbols that are left, and the symbols it has written. -/
inductive Move : Proc σ ε α → List σ → Proc σ ε α → List σ → List σ → Prop
  | read {n : ℕ} {k : List σ → Proc σ ε α} {w u : List σ} (hw : w ≠ []) (hn : w.length ≤ n) :
      Move (read n k) (w ++ u) (read (n - w.length) fun v => k (w ++ v)) u []
  | readAll {k : List σ → Proc σ ε α} {u : List σ} : Move (read 0 k) u (k []) u []
  | write {w v : List σ} {k : Proc σ ε α} {u : List σ} (hw : w ≠ []) :
      Move (write (w ++ v) k) u (write v k) u w
  | writeAll {k : Proc σ ε α} {u : List σ} : Move (write [] k) u k u []

/-- The move of one symbol at most. -/
def tick : Proc σ ε α → List σ → Option (Proc σ ε α × List σ × List σ)
  | ret _, _ => none
  | fail _, _ => none
  | read 0 k, u => some (k [], u, [])
  | read (_ + 1) _, [] => none
  | read (n + 1) k, x :: u => some (read n fun v => k (x :: v), u, [])
  | write [] k, u => some (k, u, [])
  | write (x :: v) k, u => some (write v k, u, [x])

/-- A tick is a move. -/
theorem move_of_tick {p p' : Proc σ ε α} {u u' out : List σ} (h : p.tick u = some (p', u', out)) :
    Move p u p' u' out := by
  unfold tick at h
  split at h
  · cases h
  · cases h
  · cases h
    exact .readAll
  · cases h
  · rename_i n k x u
    cases h
    exact .read (w := [x]) (n := n + 1) (by simp) (by simp)
  · cases h
    exact .writeAll
  · rename_i x v k
    cases h
    exact .write (w := [x]) (by simp)

/-- A number of ticks of a program on its own. -/
inductive Ticks : ℕ → Proc σ ε α → List σ → Proc σ ε α → List σ → List σ → Prop
  | refl (p : Proc σ ε α) (u : List σ) : Ticks 0 p u p u []
  | head {n : ℕ} {p p₁ p₂ : Proc σ ε α} {u u₁ u₂ out out' : List σ}
      (h : p.tick u = some (p₁, u₁, out)) (t : Ticks n p₁ u₁ p₂ u₂ out') :
      Ticks (n + 1) p u p₂ u₂ (out ++ out')

/-- A tick that writes nothing, in front. -/
theorem Ticks.silent {n : ℕ} {p p₁ p₂ : Proc σ ε α} {u u₁ u₂ out : List σ}
    (h : p.tick u = some (p₁, u₁, [])) (t : Ticks n p₁ u₁ p₂ u₂ out) :
    Ticks (n + 1) p u p₂ u₂ out :=
  .head h t

theorem Ticks.trans {m n : ℕ} {p p' p'' : Proc σ ε α} {u u' u'' out out' : List σ}
    (h : p.Ticks m u p' u' out) (h' : p'.Ticks n u' p'' u'' out') :
    p.Ticks (m + n) u p'' u'' (out ++ out') := by
  induction h with
  | refl => rwa [Nat.zero_add]
  | head h t ih =>
      rw [Nat.add_right_comm, List.append_assoc]
      exact .head h (ih h')

/-- A read of some symbols, one by one. -/
theorem ticks_read (w : List σ) :
    ∀ {n : ℕ} (k : List σ → Proc σ ε α) (u : List σ), w.length ≤ n →
      Ticks w.length (read n k) (w ++ u) (read (n - w.length) fun v => k (w ++ v)) u [] := by
  induction w with
  | nil => exact fun k u _ => .refl _ _
  | cons x w ih =>
      intro n k u hn
      obtain ⟨n, rfl⟩ : ∃ m, n = m + 1 :=
        Nat.exists_eq_succ_of_ne_zero (by rw [List.length_cons] at hn; omega)
      have hrest := ih (n := n) (fun v => k (x :: v)) u (by simpa using hn)
      have hsub : n + 1 - (x :: w).length = n - w.length := by
        rw [List.length_cons]
        omega
      rw [hsub]
      exact .silent rfl hrest

/-- A write of some symbols, one by one. -/
theorem ticks_write (w : List σ) (v : List σ) (k : Proc σ ε α) (u : List σ) :
    Ticks w.length (write (w ++ v) k) u (write v k) u w := by
  induction w with
  | nil => exact .refl _ _
  | cons x w ih =>
      have htick : (write (x :: (w ++ v)) k).tick u = some (write (w ++ v) k, u, [x]) := rfl
      exact .head htick ih

/-- A move is one or more ticks. -/
theorem ticks_of_move {p p' : Proc σ ε α} {u u' out : List σ} (h : Move p u p' u' out) :
    ∃ n, Ticks (n + 1) p u p' u' out := by
  have hpos : ∀ {w : List σ}, w ≠ [] → ∃ n, w.length = n + 1 := fun hw =>
    Nat.exists_eq_succ_of_ne_zero (Nat.ne_of_gt (List.length_pos_of_ne_nil hw))
  cases h with
  | read hw hn =>
      obtain ⟨n, hn'⟩ := hpos hw
      exact ⟨n, hn' ▸ ticks_read _ _ _ hn⟩
  | readAll => exact ⟨0, .silent rfl (.refl _ _)⟩
  | write hw =>
      obtain ⟨n, hn'⟩ := hpos hw
      exact ⟨n, hn' ▸ ticks_write _ _ _ _⟩
  | writeAll => exact ⟨0, .silent rfl (.refl _ _)⟩

/-- Symbols that arrive later do not change a tick. -/
theorem tick_append {p p' : Proc σ ε α} {u u' out : List σ} (h : p.tick u = some (p', u', out))
    (v : List σ) : p.tick (u ++ v) = some (p', u' ++ v, out) := by
  unfold tick at h
  split at h <;> cases h <;> rfl

end Proc

/-! ## Two programs -/

/-- Two programs, and the symbols under way in each direction. -/
structure Config (σ ε α β : Type) where
  left : Proc σ ε α
  right : Proc σ ε β
  toRight : List σ := []
  toLeft : List σ := []

variable {σ ε α β : Type}

/-- A move of either program. -/
inductive Step : Config σ ε α β → Config σ ε α β → Prop
  | left {c : Config σ ε α β} {p : Proc σ ε α} {u out : List σ} (h : c.left.Move c.toLeft p u out) :
      Step c { c with left := p, toLeft := u, toRight := c.toRight ++ out }
  | right {c : Config σ ε α β} {p : Proc σ ε β} {u out : List σ}
      (h : c.right.Move c.toRight p u out) :
      Step c { c with right := p, toRight := u, toLeft := c.toLeft ++ out }

/-- A tick of either program. -/
inductive Tick : Config σ ε α β → Config σ ε α β → Prop
  | left {c : Config σ ε α β} {p : Proc σ ε α} {u out : List σ}
      (h : c.left.tick c.toLeft = some (p, u, out)) :
      Tick c { c with left := p, toLeft := u, toRight := c.toRight ++ out }
  | right {c : Config σ ε α β} {p : Proc σ ε β} {u out : List σ}
      (h : c.right.tick c.toRight = some (p, u, out)) :
      Tick c { c with right := p, toRight := u, toLeft := c.toLeft ++ out }

/-- A number of steps of a relation. -/
inductive Steps {γ : Type} (r : γ → γ → Prop) : ℕ → γ → γ → Prop
  | refl (c : γ) : Steps r 0 c c
  | head {n : ℕ} {c c' d : γ} (h : r c c') (t : Steps r n c' d) : Steps r (n + 1) c d

/-- **However it is scheduled and segmented**, the system comes from `c` to its end `final`:
its runs are bounded, and one that cannot go on is there. -/
def Settles (c final : Config σ ε α β) : Prop :=
  ∃ bound, ∀ n c', Steps Step n c c' → n ≤ bound ∧ ((∀ c'', ¬Step c' c'') → c' = final)

/-! ## Runs that commute -/

section Steps

variable {γ : Type} {r : γ → γ → Prop}

theorem Steps.trans {m n : ℕ} {a b d : γ} (h : Steps r m a b) (h' : Steps r n b d) :
    Steps r (m + n) a d := by
  induction h with
  | refl => rwa [Nat.zero_add]
  | head h t ih =>
      rw [Nat.add_right_comm]
      exact .head h (ih h')

/-- **All runs are equally long.**  If two steps from one place agree or meet again after one
more step each, then a step on the way to an end leaves one step less to go. -/
theorem Steps.of_step (hdiamond : ∀ a b d, r a b → r a d → b = d ∨ ∃ e, r b e ∧ r d e)
    {n : ℕ} {c c' final : γ} (hfinal : ∀ d, ¬r final d) (h : Steps r n c final) (h' : r c c') :
    ∃ m, n = m + 1 ∧ Steps r m c' final := by
  induction h generalizing c' with
  | refl => exact absurd h' (hfinal c')
  | head h t ih =>
      rcases hdiamond _ _ _ h h' with rfl | ⟨e, hb, hd⟩
      · exact ⟨_, rfl, t⟩
      · obtain ⟨m, rfl, hm⟩ := ih hfinal hb
        exact ⟨m + 1, rfl, .head hd hm⟩

/-- After a run of any length the end is as far away as the run was short of it. -/
theorem Steps.of_steps (hdiamond : ∀ a b d, r a b → r a d → b = d ∨ ∃ e, r b e ∧ r d e)
    {m n : ℕ} {c c' final : γ} (hfinal : ∀ d, ¬r final d) (h : Steps r n c final)
    (h' : Steps r m c c') : ∃ k, n = m + k ∧ Steps r k c' final := by
  induction h' generalizing n with
  | refl => exact ⟨n, (Nat.zero_add n).symm, h⟩
  | head h' t ih =>
      obtain ⟨j, rfl, hj⟩ := Steps.of_step hdiamond hfinal h h'
      obtain ⟨k, rfl, hk⟩ := ih hj
      exact ⟨k, by omega, hk⟩

end Steps

/-- The ticks of the two programs commute. -/
theorem tick_diamond (a b d : Config σ ε α β) (hb : Tick a b) (hd : Tick a d) :
    b = d ∨ ∃ e, Tick b e ∧ Tick d e := by
  cases hb with
  | left hb =>
      cases hd with
      | left hd =>
          rw [hb] at hd
          cases hd
          exact Or.inl rfl
      | right hd =>
          exact Or.inr ⟨_, .right (Proc.tick_append hd _), .left (Proc.tick_append hb _)⟩
  | right hb =>
      cases hd with
      | left hd =>
          exact Or.inr ⟨_, .left (Proc.tick_append hd _), .right (Proc.tick_append hb _)⟩
      | right hd =>
          rw [hb] at hd
          cases hd
          exact Or.inl rfl

/-- The ticks of one program, in the system. -/
theorem steps_left {n : ℕ} {p p' : Proc σ ε α} {u u' out : List σ} (h : p.Ticks n u p' u' out) :
    ∀ (right : Proc σ ε β) (v : List σ),
      Steps Tick n ⟨p, right, v, u⟩ ⟨p', right, v ++ out, u'⟩ := by
  induction h with
  | refl p u =>
      intro right v
      rw [List.append_nil]
      exact .refl _
  | head h t ih =>
      intro right v
      rw [← List.append_assoc]
      exact .head (.left h) (ih right _)

theorem steps_right {n : ℕ} {p p' : Proc σ ε β} {u u' out : List σ} (h : p.Ticks n u p' u' out) :
    ∀ (left : Proc σ ε α) (v : List σ),
      Steps Tick n ⟨left, p, u, v⟩ ⟨left, p', u', v ++ out⟩ := by
  induction h with
  | refl p u =>
      intro left v
      rw [List.append_nil]
      exact .refl _
  | head h t ih =>
      intro left v
      rw [← List.append_assoc]
      exact .head (.right h) (ih left _)

/-- A run with transfers of any size is a run with transfers of one symbol, and not longer. -/
theorem ticks_of_steps {n : ℕ} {c c' : Config σ ε α β} (h : Steps Step n c c') :
    ∃ m, n ≤ m ∧ Steps Tick m c c' := by
  induction h with
  | refl c => exact ⟨0, Nat.le_refl 0, .refl c⟩
  | head h t ih =>
      obtain ⟨m, hm, ht⟩ := ih
      cases h with
      | left h =>
          obtain ⟨j, hj⟩ := Proc.ticks_of_move h
          exact ⟨j + 1 + m, by omega, (steps_left hj _ _).trans ht⟩
      | right h =>
          obtain ⟨j, hj⟩ := Proc.ticks_of_move h
          exact ⟨j + 1 + m, by omega, (steps_right hj _ _).trans ht⟩

theorem step_of_tick {c c' : Config σ ε α β} (h : Tick c c') : Step c c' := by
  cases h with
  | left h => exact .left (Proc.move_of_tick h)
  | right h => exact .right (Proc.move_of_tick h)

/-- One schedule of single symbols leads from `c` to `c'`. -/
def Reaches (c c' : Config σ ε α β) : Prop := ∃ n, Steps Tick n c c'

theorem Reaches.refl (c : Config σ ε α β) : Reaches c c := ⟨0, .refl c⟩

/-- **One schedule decides.**  If one schedule leads to a configuration in which neither program
can move, then all of them do. -/
theorem settles_of_reaches {c final : Config σ ε α β} (h : Reaches c final)
    (hleft : final.left.tick final.toLeft = none)
    (hright : final.right.tick final.toRight = none) : Settles c final := by
  obtain ⟨bound, hbound⟩ := h
  have hfinal : ∀ d, ¬Tick final d := by
    intro d hd
    cases hd with
    | left hd =>
        rw [hleft] at hd
        cases hd
    | right hd =>
        rw [hright] at hd
        cases hd
  refine ⟨bound, fun n c' hsteps => ?_⟩
  obtain ⟨m, hle, hticks⟩ := ticks_of_steps hsteps
  obtain ⟨k, rfl, hk⟩ := Steps.of_steps tick_diamond hfinal hbound hticks
  refine ⟨by omega, fun hstuck => ?_⟩
  cases hk with
  | refl => rfl
  | head h _ => exact absurd (step_of_tick h) (hstuck _)

/-! ## Rules for one schedule -/

section Rules

variable {left : Proc σ ε α} {right : Proc σ ε β} {u v : List σ} {c : Config σ ε α β}

/-- What a program asks for is there. -/
theorem Proc.exists_ticks_read {n : ℕ} (k : List σ → Proc σ ε α) (w u : List σ)
    (hn : w.length = n) : ∃ m, (read n k).Ticks m (w ++ u) (k w) u [] := by
  have hread := ticks_read w (n := n) k u (Nat.le_of_eq hn)
  have hend : (read (n - w.length) fun v => k (w ++ v)).Ticks 1 u (k w) u [] := by
    rw [hn, Nat.sub_self]
    refine .silent ?_ (.refl _ _)
    rw [tick, List.append_nil]
  exact ⟨_, hread.trans hend⟩

/-- A word is written. -/
theorem Proc.exists_ticks_write (w : List σ) (k : Proc σ ε α) (u : List σ) :
    ∃ m, (write w k).Ticks m u k u w := by
  have hwrite := ticks_write w [] k u
  rw [List.append_nil] at hwrite
  have hall := hwrite.trans (.silent rfl (.refl k u))
  rw [List.append_nil] at hall
  exact ⟨_, hall⟩

/-- A program that only reads finds what it asks for, if a supplier that works through the
same symbols says so. -/
theorem Proc.exists_ticks_ofReader {ε' γ : Type}
    {supply : List σ → ℕ → Except ε' (List σ) × List σ}
    (hsupply : ∀ u n w u', supply u n = (.ok w, u') → u = w ++ u' ∧ w.length = n)
    (f : Except ε' γ → Proc σ ε α) :
    ∀ (x : Transfer.Reader σ ε' γ) {u u' : List σ} {a : γ}, x.run supply u = (.ok a, u') →
      ∃ m, ((ofReader x).attempt >>= f).Ticks m u (f (.ok a)) u' [] := by
  intro x
  induction x with
  | ret b =>
      intro u u' a h
      cases h
      exact ⟨0, .refl _ _⟩
  | fail e =>
      intro u u' a h
      cases h
  | read n k ih =>
      intro u u' a h
      obtain ⟨w, u₁, hw, hrun⟩ := Transfer.Reader.exists_of_run_read_eq_ok h
      obtain ⟨rfl, hn⟩ := hsupply _ _ _ _ hw
      obtain ⟨m, hm⟩ := exists_ticks_read (fun w => (ofReader (k w)).attempt >>= f) w u₁ hn
      obtain ⟨m', hm'⟩ := ih w hrun
      exact ⟨m + m', hm.trans hm'⟩

theorem Reaches.of_left {n : ℕ} {p : Proc σ ε α} {u' out : List σ} (h : left.Ticks n u p u' out)
    (t : Reaches ⟨p, right, v ++ out, u'⟩ c) : Reaches ⟨left, right, v, u⟩ c := by
  obtain ⟨m, hm⟩ := t
  exact ⟨n + m, (steps_left h right v).trans hm⟩

theorem Reaches.of_right {n : ℕ} {p : Proc σ ε β} {v' out : List σ} (h : right.Ticks n v p v' out)
    (t : Reaches ⟨left, p, v', u ++ out⟩ c) : Reaches ⟨left, right, v, u⟩ c := by
  obtain ⟨m, hm⟩ := t
  exact ⟨n + m, (steps_right h left u).trans hm⟩

/-- The left program writes a word. -/
theorem Reaches.write_left {w : List σ} (h : Reaches ⟨left, right, v ++ w, u⟩ c) :
    Reaches ⟨.write w left, right, v, u⟩ c := by
  obtain ⟨m, hm⟩ := Proc.exists_ticks_write w left u
  exact .of_left hm h

/-- The right program writes a word. -/
theorem Reaches.write_right {w : List σ} (h : Reaches ⟨left, right, v, u ++ w⟩ c) :
    Reaches ⟨left, .write w right, v, u⟩ c := by
  obtain ⟨m, hm⟩ := Proc.exists_ticks_write w right v
  exact .of_right hm h

/-- The left program reads the word in front. -/
theorem Reaches.read_left {n : ℕ} {k : List σ → Proc σ ε α} (w u : List σ) (hn : w.length = n)
    (h : Reaches ⟨k w, right, v, u⟩ c) : Reaches ⟨.read n k, right, v, w ++ u⟩ c := by
  obtain ⟨m, hm⟩ := Proc.exists_ticks_read k w u hn
  exact .of_left hm (by rwa [List.append_nil])

/-- The right program reads the word in front. -/
theorem Reaches.read_right {n : ℕ} {k : List σ → Proc σ ε β} (w v : List σ) (hn : w.length = n)
    (h : Reaches ⟨left, k w, v, u⟩ c) : Reaches ⟨left, .read n k, w ++ v, u⟩ c := by
  obtain ⟨m, hm⟩ := Proc.exists_ticks_read k w v hn
  exact .of_right hm (by rwa [List.append_nil])

section Reader

variable {ε' γ : Type} {supply : List σ → ℕ → Except ε' (List σ) × List σ}
  {x : Transfer.Reader σ ε' γ} {a : γ}

/-- The left program reads with a reader. -/
theorem Reaches.reader_left {f : Except ε' γ → Proc σ ε α} {u' : List σ}
    (hsupply : ∀ u n w u', supply u n = (.ok w, u') → u = w ++ u' ∧ w.length = n)
    (hx : x.run supply u = (.ok a, u')) (h : Reaches ⟨f (.ok a), right, v, u'⟩ c) :
    Reaches ⟨(Proc.ofReader x).attempt >>= f, right, v, u⟩ c := by
  obtain ⟨m, hm⟩ := Proc.exists_ticks_ofReader hsupply f x hx
  exact .of_left hm (by rwa [List.append_nil])

/-- The right program reads with a reader. -/
theorem Reaches.reader_right {f : Except ε' γ → Proc σ ε β} {v' : List σ}
    (hsupply : ∀ u n w u', supply u n = (.ok w, u') → u = w ++ u' ∧ w.length = n)
    (hx : x.run supply v = (.ok a, v')) (h : Reaches ⟨left, f (.ok a), v', u⟩ c) :
    Reaches ⟨left, (Proc.ofReader x).attempt >>= f, v, u⟩ c := by
  obtain ⟨m, hm⟩ := Proc.exists_ticks_ofReader hsupply f x hx
  exact .of_right hm (by rwa [List.append_nil])

end Reader

end Rules

end Duplex
