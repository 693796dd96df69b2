/-
# Flat buffers

A library about buffers whose readable part is one piece of memory, as `beast::flat_buffer` is.
What is appended is written behind the readable part, where `prepare` has made room for it; what is
consumed stays in front of it.  Without room behind the readable part `prepare` moves it to the
beginning of the memory, and without enough memory at all to a new block.

`data` returns a place, not its contents.  After `prepare` there may be other contents at this
place, or it may be in a block that was freed: `copy_prepare_iff` says when the first elements are
still found there, and `keeps_append` that there is no question when the block was large enough.
-/
import Mathlib.Data.List.Basic
import Mathlib.Order.Lattice

/-- The elements of the block, in three parts, and the number of blocks before this one. -/
structure FlatBuffer (α : Type) where
  front : List α := []
  readable : List α := []
  back : List α := []
  block : ℕ := 0
  deriving DecidableEq

namespace FlatBuffer

/-- A place that `data` has returned. -/
structure View where
  block : ℕ
  offset : ℕ
  size : ℕ

variable {α : Type}

/-! ## Operations -/

/-- All elements of the block. -/
def memory (b : FlatBuffer α) : List α := b.front ++ (b.readable ++ b.back)

/-- Room for `n` elements behind the readable ones. -/
def prepare [Inhabited α] (n : ℕ) (b : FlatBuffer α) : FlatBuffer α :=
  if n ≤ b.back.length then b
  else if n ≤ b.front.length + b.back.length then
    -- the readable part is written over what stands at the beginning
    { b with front := [], back := b.memory.drop b.readable.length }
  else
    -- the new block has at least twice the size of the readable part
    { front := []
      readable := b.readable
      back := List.replicate (max b.readable.length n) default
      block := b.block + 1 }

/-- Append what was written to the room. -/
def commit (w : List α) (b : FlatBuffer α) : FlatBuffer α :=
  { b with readable := b.readable ++ w, back := b.back.drop w.length }

/-- Take elements from the front. -/
def consume (n : ℕ) (b : FlatBuffer α) : FlatBuffer α :=
  if b.readable.length ≤ n then { b with front := [], readable := [], back := b.memory }
  else { b with front := b.front ++ b.readable.take n, readable := b.readable.drop n }

/-- The readable part, as a place. -/
def data (b : FlatBuffer α) : View := ⟨b.block, b.front.length, b.readable.length⟩

/-- Where the room begins. -/
def out (b : FlatBuffer α) : ℕ := b.front.length + b.readable.length

/-- What is copied from a place to the first `n` elements of the room of the buffer `b`.  Copying
is not defined from a block that was freed, and between places that overlap. -/
def View.copy (n : ℕ) (b : FlatBuffer α) (v : View) : Option (List α) :=
  let copied := min n v.size
  if copied = 0 then some []
  else if v.block ≠ b.block then none
  else if v.offset < b.out + copied ∧ b.out < v.offset + copied then none
  else some ((b.memory.drop v.offset).take copied)

/-- Append several pieces, one after the other. -/
def append [Inhabited α] (pieces : List (List α)) (b : FlatBuffer α) : FlatBuffer α :=
  pieces.foldl (fun b piece => (b.prepare piece.length).commit piece) b

/-! ## The readable part -/

@[simp] theorem readable_prepare [Inhabited α] (n : ℕ) (b : FlatBuffer α) :
    (b.prepare n).readable = b.readable := by
  unfold prepare
  split
  · rfl
  · split <;> rfl

@[simp] theorem readable_commit (w : List α) (b : FlatBuffer α) :
    (b.commit w).readable = b.readable ++ w := rfl

@[simp] theorem readable_consume (n : ℕ) (b : FlatBuffer α) :
    (b.consume n).readable = b.readable.drop n := by
  unfold consume
  split
  · rename_i hle
    exact (List.drop_of_length_le hle).symm
  · rfl

@[simp] theorem readable_append [Inhabited α] (pieces : List (List α)) (b : FlatBuffer α) :
    (b.append pieces).readable = b.readable ++ pieces.flatten := by
  unfold append
  induction pieces generalizing b with
  | nil => simp
  | cons piece pieces ih =>
      rw [List.foldl_cons, ih, readable_commit, readable_prepare, List.flatten_cons,
        List.append_assoc]

/-! ## Places -/

variable {b : FlatBuffer α} {n : ℕ}

theorem prepare_of_le [Inhabited α] (h : n ≤ b.back.length) : b.prepare n = b := if_pos h

/-- A place that was taken after `prepare` has the readable part. -/
theorem copy_data (n : ℕ) (b : FlatBuffer α) : b.data.copy n b = some (b.readable.take n) := by
  have htake : b.readable.take (min n b.readable.length) = b.readable.take n := by
    rw [List.take_eq_take_iff]
    omega
  have hsize : b.data.size = b.readable.length := rfl
  unfold View.copy
  rw [hsize]
  by_cases hzero : min n b.readable.length = 0
  · rw [if_pos hzero, ← htake, hzero, List.take_zero]
  · have hapart : ¬(b.data.offset < b.out + min n b.readable.length
        ∧ b.out < b.data.offset + min n b.readable.length) := by
      simp only [data, out]
      omega
    have hoffset : b.data.offset = b.front.length := rfl
    rw [if_neg hzero, if_neg (by simp [data]), if_neg hapart, memory, hoffset, List.drop_left,
      List.take_append_of_le_length (by omega), htake]

/-- The first `n` elements are still found at their place after `prepare n`: nothing is moved, or
they are moved within the block, and at their place there are still the same elements, or again. -/
def Keeps (n : ℕ) (b : FlatBuffer α) : Prop :=
  n = 0 ∨ n ≤ b.back.length
    ∨ n ≤ b.front.length + b.back.length
      ∧ (b.readable.length + n ≤ b.front.length
        ∨ b.front.length + n ≤ b.readable.length
          ∧ (b.readable.drop b.front.length).take n = b.readable.take n)

instance [DecidableEq α] : Decidable (b.Keeps n) := inferInstanceAs (Decidable (_ ∨ _))

/-- What is found after the readable part was moved to the beginning. -/
theorem take_drop_moved (h : b.readable.length + n ≤ b.front.length) (hn : n ≤ b.readable.length) :
    ((b.readable ++ b.memory.drop b.readable.length).drop b.front.length).take n
      = b.readable.take n := by
  have hdrop : (b.readable ++ b.memory.drop b.readable.length).drop b.front.length
      = b.readable ++ b.back := by
    rw [List.drop_append, List.drop_of_length_le (by omega), List.nil_append, List.drop_drop,
      Nat.add_sub_cancel' (by omega), memory, List.drop_left]
  rw [hdrop, List.take_append_of_le_length hn]

/-- **What is found at a place that was taken before `prepare`.** -/
theorem copy_prepare_iff [Inhabited α] (hn : n ≤ b.readable.length) :
    b.data.copy n (b.prepare n) = some (b.readable.take n) ↔ b.Keeps n := by
  by_cases hzero : n = 0
  · subst hzero
    simp [View.copy, Keeps]
  have hmin : min n b.readable.length = n := Nat.min_eq_left hn
  by_cases hback : n ≤ b.back.length
  · rw [prepare_of_le hback, copy_data]
    exact ⟨fun _ => Or.inr (Or.inl hback), fun _ => rfl⟩
  by_cases hroom : n ≤ b.front.length + b.back.length
  · have hprepare : b.prepare n
        = { b with front := [], back := b.memory.drop b.readable.length } := by
      rw [prepare, if_neg hback, if_pos hroom]
    simp only [hprepare, View.copy, data, out, memory, hmin, hzero, Keeps, hback, hroom, if_false,
      ne_eq, not_true_eq_false, List.length_nil, Nat.zero_add, List.nil_append, false_or, true_and]
    by_cases hleft : b.readable.length + n ≤ b.front.length
    · rw [if_neg (by omega)]
      exact ⟨fun _ => Or.inl hleft, fun _ => congrArg some (take_drop_moved hleft hn)⟩
    by_cases hright : b.front.length + n ≤ b.readable.length
    · rw [if_neg (by omega), Option.some_inj, List.drop_append_of_le_length (by omega),
        List.take_append_of_le_length (by rw [List.length_drop]; omega)]
      exact ⟨fun h => Or.inr ⟨hright, h⟩, fun h => (h.resolve_left hleft).2⟩
    · rw [if_pos (by omega)]
      simp [hleft, hright]
  · have hblock : (b.prepare n).block = b.block + 1 := by
      rw [prepare, if_neg hback, if_neg hroom]
    have hnone : b.data.copy n (b.prepare n) = none := by
      simp only [View.copy, data, hmin, hzero, if_false]
      rw [if_pos (by rw [hblock]; omega)]
    rw [hnone]
    simp [Keeps, hzero, hback, hroom]

/-- Pieces for which there is room are written behind the readable part. -/
theorem append_of_le [Inhabited α] {pieces : List (List α)}
    (h : pieces.flatten.length ≤ b.back.length) : b.append pieces = b.commit pieces.flatten := by
  unfold append
  induction pieces generalizing b with
  | nil => simp [commit]
  | cons piece pieces ih =>
      rw [List.flatten_cons, List.length_append] at h
      rw [List.foldl_cons, prepare_of_le (by omega), ih]
      · simp [commit]
      · simp only [commit, List.length_drop]
        omega

/-- A block that has room for all that is appended and the elements once more. -/
theorem keeps_append [Inhabited α] {pieces : List (List α)}
    (h : pieces.flatten.length + n ≤ b.back.length) : (b.append pieces).Keeps n := by
  rw [append_of_le (by omega)]
  refine Or.inr (Or.inl ?_)
  simp only [commit, List.length_drop]
  omega

end FlatBuffer
