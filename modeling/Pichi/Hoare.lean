/-
# Pre- and postconditions

A library of rules for programs with a state and failures, `ExceptT ε (StateM S)`: what holds of
the state when a program returns, and what when it fails.  A failure keeps the state it has
reached, so that the second postcondition is what a later program may rely on: `runAll` makes
several programs one after another, whether they fail or not.  `Refines` compares a program with
a function of a part of its state.
-/
import Pichi.Transfer

namespace Hoare

open Transfer (bind_of_ok bind_of_error)

variable {ε α β S : Type}

/-- From a state with `P` the program returns some `a` in a state with `Q a`, or fails with some
`e` in a state with `E e`. -/
def Triple (P : S → Prop) (x : ExceptT ε (StateM S) α) (Q : α → S → Prop) (E : ε → S → Prop) :
    Prop :=
  ∀ s, P s → (∃ a s', x s = (.ok a, s') ∧ Q a s') ∨ ∃ e s', x s = (.error e, s') ∧ E e s'

namespace Triple

variable {P P' : S → Prop} {Q Q' : α → S → Prop} {R : β → S → Prop} {E E' : ε → S → Prop}
  {x : ExceptT ε (StateM S) α} {f : α → ExceptT ε (StateM S) β}

theorem pure (a : α) : Triple (Q a) (Pure.pure a : ExceptT ε (StateM S) α) Q E :=
  fun s hs => Or.inl ⟨a, s, rfl, hs⟩

theorem throw (e : ε) : Triple (E e) (MonadExcept.throw e : ExceptT ε (StateM S) α) Q E :=
  fun s hs => Or.inr ⟨e, s, rfl, hs⟩

/-- A sequence. -/
theorem bind (hx : Triple P x Q E) (hf : ∀ a, Triple (Q a) (f a) R E) :
    Triple P (x >>= f) R E := by
  intro s hs
  rcases hx s hs with ⟨a, s', hrun, hQ⟩ | ⟨e, s', hrun, hE⟩
  · rw [bind_of_ok hrun]
    exact hf a s' hQ
  · exact Or.inr ⟨e, s', bind_of_error hrun, hE⟩

/-- A program that starts by looking at the state. -/
theorem get_bind {g : S → ExceptT ε (StateM S) β} (h : ∀ s, P s → Triple (· = s) (g s) R E) :
    Triple P (get >>= g) R E :=
  fun s hs => h s hs s rfl

theorem ite {b : Prop} [Decidable b] {y : ExceptT ε (StateM S) α} (hx : b → Triple P x Q E)
    (hy : ¬b → Triple P y Q E) : Triple P (if b then x else y) Q E := by
  split
  · rename_i hb
    exact hx hb
  · rename_i hb
    exact hy hb

/-- A program that is made under a condition, and what follows it in any case. -/
theorem when_bind {b : Prop} [Decidable b] {y : ExceptT ε (StateM S) PUnit}
    {k : PUnit → ExceptT ε (StateM S) β} {I : S → Prop} (hy : b → Triple P y (fun _ => I) E)
    (hskip : ¬b → ∀ s, P s → I s) (hk : Triple I (k ⟨⟩) R E) :
    Triple P (if b then y >>= k else k ⟨⟩) R E := by
  apply ite
  · intro hb
    exact (hy hb).bind fun _ => hk
  · intro hb s hs
    exact hk s (hskip hb s hs)

theorem modify {g : S → S} {Q : PUnit → S → Prop} (h : ∀ s, P s → Q ⟨⟩ (g s)) :
    Triple P (modify g : ExceptT ε (StateM S) PUnit) Q E :=
  fun s hs => Or.inl ⟨⟨⟩, g s, rfl, h s hs⟩

/-- A stronger precondition, and weaker postconditions. -/
theorem weaken (h : Triple P x Q E) (hP : ∀ s, P' s → P s) (hQ : ∀ a s, Q a s → Q' a s)
    (hE : ∀ e s, E e s → E' e s) : Triple P' x Q' E' := by
  intro s hs
  rcases h s (hP s hs) with ⟨a, s', hrun, hpost⟩ | ⟨e, s', hrun, hpost⟩
  · exact Or.inl ⟨a, s', hrun, hQ a s' hpost⟩
  · exact Or.inr ⟨e, s', hrun, hE e s' hpost⟩

theorem weaken_pre (h : Triple P x Q E) (hP : ∀ s, P' s → P s) : Triple P' x Q E :=
  h.weaken hP (fun _ _ hQ => hQ) fun _ _ hE => hE

end Triple

/-! ## Several programs -/

/-- One program after another, each of them whether the ones before failed or not. -/
def runAll : List (ExceptT ε (StateM S) α) → S → List (Except ε α) × S
  | [], s => ([], s)
  | x :: xs, s =>
    let r := x s
    let rs := runAll xs r.2
    (r.1 :: rs.1, rs.2)

variable {I P : S → Prop} {F : ε → Prop} {x : ExceptT ε (StateM S) α}
  {xs : List (ExceptT ε (StateM S) α)} {s : S}

theorem runAll_cons (hx : Triple P x (fun _ => I) fun e s => I s ∧ F e)
    (hxs : ∀ s, I s → I (runAll xs s).2 ∧ ∀ e, .error e ∈ (runAll xs s).1 → F e) (hs : P s) :
    I (runAll (x :: xs) s).2 ∧ ∀ e, .error e ∈ (runAll (x :: xs) s).1 → F e := by
  rw [runAll]
  rcases hx s hs with ⟨a, s', hrun, hI⟩ | ⟨e, s', hrun, hI, hF⟩
  · rw [hrun]
    refine ⟨(hxs s' hI).1, fun e' he' => ?_⟩
    rcases List.mem_cons.mp he' with he' | he'
    · cases he'
    · exact (hxs s' hI).2 e' he'
  · rw [hrun]
    refine ⟨(hxs s' hI).1, fun e' he' => ?_⟩
    rcases List.mem_cons.mp he' with he' | he'
    · cases he'
      exact hF
    · exact (hxs s' hI).2 e' he'

/-- What every program keeps and says of its failures, a run keeps and says of all of them. -/
theorem runAll_of_forall (h : ∀ x ∈ xs, Triple I x (fun _ => I) fun e s => I s ∧ F e)
    (hs : I s) : I (runAll xs s).2 ∧ ∀ e, .error e ∈ (runAll xs s).1 → F e := by
  induction xs generalizing s with
  | nil => exact ⟨hs, fun e he => absurd he List.not_mem_nil⟩
  | cons x xs ih =>
      apply runAll_cons (h x List.mem_cons_self) _ hs
      intro s' hs'
      exact ih (fun y hy => h y (List.mem_cons_of_mem x hy)) hs'

/-! ## A part of the state -/

/-- The program does to a part of the state what the function does, and answers the same. -/
def Refines {T : Type} (forget : S → T) (x : ExceptT ε (StateM S) α) (f : T → Except ε α × T) :
    Prop :=
  ∀ s, Prod.map id forget (x s) = f (forget s)

/-- A sequence refines what its programs refine. -/
theorem Refines.bind {T : Type} {forget : S → T} {g : α → ExceptT ε (StateM S) β}
    {f : T → Except ε α × T} {h : α → T → Except ε β × T} (hx : Refines forget x f)
    (hg : ∀ a, Refines forget (g a) (h a)) :
    Refines forget (x >>= g) fun t =>
      match f t with
      | (.error e, t) => (.error e, t)
      | (.ok a, t) => h a t := by
  intro s
  beta_reduce
  rcases hrun : x s with ⟨e | a, s'⟩
  · rw [bind_of_error hrun, ← hx s, hrun]
    rfl
  · rw [bind_of_ok hrun, ← hx s, hrun]
    exact hg a s'

end Hoare
