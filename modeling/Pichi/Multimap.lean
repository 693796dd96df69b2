/-
# Ordered multimaps

A library about the ordered multimap of the C++ standard library, as far as iterators are
concerned: nodes in the order of their keys, a new node behind the nodes of an equal key,
and iterators that survive the insertion and the removal of other nodes.

A node is known by the number of insertions before its own, so that an iterator is such a
number and nodes of one key stand in the order of these numbers.  Both facts are fields of
the structure.
-/
import Mathlib.Data.List.Nodup
import Mathlib.Order.Lattice

/-- A node, with the number of insertions before its own. -/
structure MultimapNode (κ α : Type) where
  serial : ℕ
  key : κ
  value : α
  deriving DecidableEq

/-- `a` stands before `b`: it has a smaller key, or it was inserted earlier with the same
key. -/
def MultimapNode.Before {κ α : Type} [LT κ] (a b : MultimapNode κ α) : Prop :=
  a.key < b.key ∨ a.key = b.key ∧ a.serial < b.serial

/-- The nodes in order, and the number of insertions so far. -/
structure Multimap (κ α : Type) [LinearOrder κ] where
  nodes : List (MultimapNode κ α)
  inserted : ℕ
  sorted : nodes.Pairwise MultimapNode.Before
  nodup : (nodes.map MultimapNode.serial).Nodup
  serial_lt : ∀ a ∈ nodes, a.serial < inserted

namespace Multimap

variable {κ α : Type} [LinearOrder κ]

/-! ## Nodes in order -/

/-- A node goes behind all nodes whose key is not larger. -/
def insertNode (a : MultimapNode κ α) : List (MultimapNode κ α) → List (MultimapNode κ α)
  | [] => [a]
  | b :: l => if b.key ≤ a.key then b :: insertNode a l else a :: b :: l

theorem insertNode_perm (a : MultimapNode κ α) (l : List (MultimapNode κ α)) :
    (insertNode a l).Perm (a :: l) := by
  induction l with
  | nil => exact .refl _
  | cons b l ih =>
      rw [insertNode]
      split
      · exact (ih.cons b).trans (.swap a b l)
      · exact .refl _

theorem before_trans {a b c : MultimapNode κ α} (hab : a.Before b) (hbc : b.Before c) :
    a.Before c := by
  rcases hab with hab | ⟨hab, hs⟩
  · rcases hbc with hbc | ⟨hbc, -⟩
    · exact Or.inl (hab.trans hbc)
    · exact Or.inl (hbc ▸ hab)
  · rcases hbc with hbc | ⟨hbc, hs'⟩
    · exact Or.inl (hab ▸ hbc)
    · exact Or.inr ⟨hab.trans hbc, Nat.lt_trans hs hs'⟩

/-- The youngest node keeps the order. -/
theorem sorted_insertNode {a : MultimapNode κ α} {l : List (MultimapNode κ α)}
    (hl : l.Pairwise MultimapNode.Before) (ha : ∀ b ∈ l, b.serial < a.serial) :
    (insertNode a l).Pairwise MultimapNode.Before := by
  induction l with
  | nil => exact List.pairwise_singleton _ _
  | cons b l ih =>
      obtain ⟨hb, hl'⟩ := List.pairwise_cons.mp hl
      rw [insertNode]
      split
      · rename_i hle
        refine List.pairwise_cons.mpr ⟨?_, ih hl' fun c hc => ha c (by simp [hc])⟩
        intro c hc
        rcases List.mem_cons.mp ((insertNode_perm a l).mem_iff.mp hc) with rfl | hc
        · rcases hle.lt_or_eq with hlt | heq
          · exact Or.inl hlt
          · exact Or.inr ⟨heq, ha b (by simp)⟩
        · exact hb c hc
      · rename_i hlt
        have hab : a.Before b := Or.inl (not_le.mp hlt)
        refine List.pairwise_cons.mpr ⟨?_, hl⟩
        intro c hc
        rcases List.mem_cons.mp hc with rfl | hc
        · exact hab
        · exact before_trans hab (hb c hc)

/-! ## The operations -/

/-- The multimap without nodes. -/
def empty : Multimap κ α where
  nodes := []
  inserted := 0
  sorted := .nil
  nodup := .nil
  serial_lt := by simp

variable (m : Multimap κ α)

/-- `emplace`; the iterator it returns is `m.inserted`. -/
def emplace (key : κ) (value : α) : Multimap κ α where
  nodes := insertNode ⟨m.inserted, key, value⟩ m.nodes
  inserted := m.inserted + 1
  sorted := sorted_insertNode m.sorted m.serial_lt
  nodup := by
    rw [((insertNode_perm _ _).map _).nodup_iff, List.map_cons, List.nodup_cons]
    refine ⟨?_, m.nodup⟩
    intro h
    obtain ⟨b, hb, heq⟩ := List.mem_map.mp h
    exact absurd (m.serial_lt b hb) (by simp [heq])
  serial_lt := by
    intro b hb
    rcases List.mem_cons.mp ((insertNode_perm _ _).mem_iff.mp hb) with rfl | hb
    · exact Nat.lt_succ_self _
    · exact Nat.lt_succ_of_lt (m.serial_lt b hb)

/-- `erase` of the node an iterator refers to. -/
def erase (it : ℕ) : Multimap κ α where
  nodes := m.nodes.filter (·.serial ≠ it)
  inserted := m.inserted
  sorted := m.sorted.filter _
  nodup := m.nodup.sublist (List.filter_sublist.map _)
  serial_lt := fun a ha => m.serial_lt a (List.mem_of_mem_filter ha)

/-- The node an iterator refers to, if it is still there. -/
def get? (it : ℕ) : Option (MultimapNode κ α) := m.nodes.find? (·.serial = it)

/-- The node `begin` refers to. -/
def first? : Option (MultimapNode κ α) := m.nodes.head?

variable {m} {a b : MultimapNode κ α} {it : ℕ} {key : κ} {value : α}

@[simp] theorem mem_emplace :
    a ∈ (m.emplace key value).nodes ↔ a = ⟨m.inserted, key, value⟩ ∨ a ∈ m.nodes := by
  rw [emplace, (insertNode_perm _ _).mem_iff, List.mem_cons]

@[simp] theorem mem_erase : a ∈ (m.erase it).nodes ↔ a ∈ m.nodes ∧ a.serial ≠ it := by
  simp [erase]

@[simp] theorem inserted_erase : (m.erase it).inserted = m.inserted := rfl

/-- An iterator determines its node. -/
theorem eq_of_serial_eq (ha : a ∈ m.nodes) (hb : b ∈ m.nodes) (h : a.serial = b.serial) :
    a = b :=
  List.inj_on_of_nodup_map m.nodup ha hb h

theorem get?_eq_some_iff : m.get? it = some a ↔ a ∈ m.nodes ∧ a.serial = it := by
  constructor
  · intro h
    exact ⟨List.mem_of_find?_eq_some h, by simpa using List.find?_some h⟩
  · rintro ⟨ha, rfl⟩
    cases h : m.get? a.serial with
    | none => exact absurd (List.find?_eq_none.mp h a ha) (by simp)
    | some b =>
        have hb := List.mem_of_find?_eq_some h
        have hserial : b.serial = a.serial := by simpa using List.find?_some h
        rw [eq_of_serial_eq hb ha hserial]

/-- The first node stands before all others. -/
theorem eq_or_before_of_first? (h : m.first? = some a) (hb : b ∈ m.nodes) :
    b = a ∨ a.Before b := by
  obtain ⟨l, hl⟩ : ∃ l, m.nodes = a :: l := List.head?_eq_some_iff.mp h
  have hsorted := m.sorted
  rw [hl] at hsorted hb
  rcases List.mem_cons.mp hb with rfl | hb
  · exact Or.inl rfl
  · exact Or.inr (List.rel_of_pairwise_cons hsorted hb)

/-- **The first node has a smallest key.** -/
theorem key_le_of_first? (h : m.first? = some a) (hb : b ∈ m.nodes) : a.key ≤ b.key := by
  rcases eq_or_before_of_first? h hb with rfl | hlt | ⟨heq, -⟩
  · exact le_refl _
  · exact hlt.le
  · exact heq.le

theorem mem_of_first? (h : m.first? = some a) : a ∈ m.nodes := List.mem_of_head? h

theorem exists_first? (ha : a ∈ m.nodes) : ∃ b, m.first? = some b := by
  cases h : m.nodes with
  | nil => simp [h] at ha
  | cons b l => exact ⟨b, by simp [first?, h]⟩

/-! ## Keys and values in order -/

/-- The keys and values of the nodes, in order. -/
def entries (m : Multimap κ α) : List (κ × α) := m.nodes.map fun a => (a.key, a.value)

/-- An entry goes behind all entries whose key is not larger. -/
def insertEntry (e : κ × α) : List (κ × α) → List (κ × α)
  | [] => [e]
  | d :: l => if d.1 ≤ e.1 then d :: insertEntry e l else e :: d :: l

theorem map_insertNode (a : MultimapNode κ α) (l : List (MultimapNode κ α)) :
    (insertNode a l).map (fun b => (b.key, b.value))
      = insertEntry (a.key, a.value) (l.map fun b => (b.key, b.value)) := by
  induction l with
  | nil => rfl
  | cons b l ih =>
      rw [insertNode, List.map_cons, insertEntry]
      split
      · rw [List.map_cons, ih]
      · rfl

/-- Where a new node stands among the keys and values does not depend on the iterators. -/
theorem entries_emplace : (m.emplace key value).entries = insertEntry (key, value) m.entries :=
  map_insertNode _ _

/-- What is left when the first node is erased. -/
theorem entries_of_first? (h : m.first? = some a) :
    m.entries = (a.key, a.value) :: (m.erase a.serial).entries := by
  obtain ⟨l, hl⟩ : ∃ l, m.nodes = a :: l := List.head?_eq_some_iff.mp h
  have hnodup := m.nodup
  rw [hl, List.map_cons, List.nodup_cons] at hnodup
  have hrest : l.filter (·.serial ≠ a.serial) = l := by
    rw [List.filter_eq_self]
    intro b hb
    refine decide_eq_true fun heq => hnodup.1 ?_
    rw [← heq]
    exact List.mem_map_of_mem hb
  have herase : (m.erase a.serial).nodes = l := by
    show m.nodes.filter (·.serial ≠ a.serial) = l
    rw [hl, List.filter_cons_of_neg (by simp), hrest]
  rw [entries, entries, herase, hl, List.map_cons]

/-- Behind keys that are not larger the new entry is the last one. -/
theorem insertEntry_of_forall_le {e : κ × α} {l : List (κ × α)} (h : ∀ d ∈ l, d.1 ≤ e.1) :
    insertEntry e l = l ++ [e] := by
  induction l with
  | nil => rfl
  | cons d l ih =>
      rw [insertEntry, if_pos (h d (by simp)), ih fun b hb => h b (by simp [hb]), List.cons_append]

/-- In front of larger keys it is the first one. -/
theorem insertEntry_of_forall_lt {e : κ × α} {l : List (κ × α)} (h : ∀ d ∈ l, e.1 < d.1) :
    insertEntry e l = e :: l := by
  cases l with
  | nil => rfl
  | cons d l => rw [insertEntry, if_neg (not_le.mpr (h d (by simp)))]

end Multimap
