/-
# Routers on their way to the listeners

`Server::update_router` hands the new router to every listener through the listener's strand:
`Listener::reroute` posts a task that writes the router to `this->router_`.  The tasks of one
strand run in the order in which they were posted; tasks of different strands run in any order.
A task is bound to the address of its listener in the table `listeners_`.  `PUT` of a name that
is in the table assigns a new listener to the same address, with a strand of its own, and leaves
the tasks of the old strand where they are.  `DELETE` frees the address: a task that is still
waiting then writes through a dangling pointer, unless a later listener has got the address.

The system is over an arbitrary type of routers.  `tracks_handle` connects it with
`Server.handle`: a request is one of its events, or none.

**Main result** (`converges_of_careful`): in every run in which no listener is put at an address
for which a task is waiting, and none for which a task is waiting is deleted, no task writes to a
freed address, and a listener for which no task is waiting has the current router.
-/
import Pichi.Interleave
import Pichi.ServerSteps

namespace Pichi

open Interleave

/-! ## The system -/

/-- A listener in the table: its address, its strand, and its `router_`. -/
structure Routed (R : Type) where
  address : ℕ
  strand : ℕ
  router : R

/-- A task of `reroute`: the address it writes to, and the router. -/
structure Task (R : Type) where
  address : ℕ
  router : R

/-- The server's router, its listeners, and the tasks waiting on each strand, oldest first.
Strands are numbered in the order in which they were made.  `undefined` has the freed addresses to
which a task has written: what the process does after that is not defined. -/
structure Actors (R : Type) where
  router : R
  listeners : ValueMap (Routed R)
  strands : ℕ → List (Task R)
  made : ℕ
  undefined : List ℕ := []

/-- What can happen. -/
inductive Actors.Event (R : Type) : Type where
  /-- `update_router`, with the router it builds. -/
  | update (router : R)
  /-- `insert_or_assign` of a new listener; the address is that of a new node. -/
  | put (name : Bytes) (address : ℕ)
  /-- `erase`. -/
  | delete (name : Bytes)
  /-- The first task of a strand runs. -/
  | deliver (strand : ℕ)

namespace Actors

variable {R : Type}

/-- The constructor of the server. -/
def start (router : R) : Actors R := ⟨router, ∅, fun _ => [], 0, []⟩

/-- No listener of the table is at the address. -/
def isFree (a : Actors R) (address : ℕ) : Bool :=
  a.listeners.entries.all fun e => e.2.address ≠ address

/-- The tasks that `update_router` posts to a strand. -/
def posts (a : Actors R) (router : R) (strand : ℕ) : List (Task R) :=
  (a.listeners.entries.filter fun e => e.2.strand = strand).map fun e => ⟨e.2.address, router⟩

/-- `update_router`. -/
def update (a : Actors R) (router : R) : Actors R :=
  { a with router := router, strands := fun k => a.strands k ++ a.posts router k }

/-- `listeners_.insert_or_assign(name, Listener{ex, router_, vo})`. -/
def put (a : Actors R) (name : Bytes) (address : ℕ) : Actors R :=
  { a with listeners := a.listeners.insert name ⟨address, a.made, a.router⟩, made := a.made + 1 }

/-- `listeners_.erase(name)`. -/
def delete (a : Actors R) (name : Bytes) : Actors R :=
  { a with listeners := a.listeners.erase name }

/-- What a task makes of a listener of the table: it writes to the one at its address. -/
def write (task : Task R) (l : Routed R) : Routed R :=
  if l.address = task.address then { l with router := task.router } else l

/-- The first task of a strand runs.  If its listener was destroyed, `this` dangles. -/
def deliver (a : Actors R) (strand : ℕ) (task : Task R) (rest : List (Task R)) : Actors R :=
  { a with
    listeners := a.listeners.mapValues (write task)
    strands := Function.update a.strands strand rest
    undefined := if a.isFree task.address then task.address :: a.undefined else a.undefined }

/-- The address `insert_or_assign` uses: the one of the name, or a free one. -/
def addressOf (a : Actors R) (name : Bytes) (address : ℕ) : Option ℕ :=
  match a.listeners.lookup name with
  | some l => some l.address
  | none => if a.isFree address then some address else none

/-- One event. -/
def exec (a : Actors R) : Event R → Option (Actors R)
  | .update router => some (a.update router)
  | .put name address => (a.addressOf name address).map (a.put name)
  | .delete name => some (a.delete name)
  | .deliver strand =>
    match a.strands strand with
    | [] => none
    | task :: rest => some (a.deliver strand task rest)

/-- A task for this address is waiting on some strand. -/
def Waiting (a : Actors R) (address : ℕ) : Prop :=
  ∃ k, ∃ task ∈ a.strands k, task.address = address

/-- Listeners for which no task is waiting have the current router. -/
def Converged (a : Actors R) : Prop :=
  ∀ name l, a.listeners.lookup name = some l → ¬a.Waiting l.address → l.router = a.router

/-- No listener is put at an address for which a task is waiting, and no listener is deleted for
which a task is waiting. -/
def Careful (a : Actors R) : Event R → Prop
  | .put name address => ∀ x, a.addressOf name address = some x → ¬a.Waiting x
  | .delete name => ∀ l, a.listeners.lookup name = some l → ¬a.Waiting l.address
  | _ => True

/-! ## The invariant -/

/-- The tasks waiting for a listener on its own strand. -/
def mailbox (a : Actors R) (l : Routed R) : List (Task R) :=
  (a.strands l.strand).filter fun task => task.address = l.address

/-- The router a listener will have when its mailbox is empty. -/
def destined (a : Actors R) (l : Routed R) : R :=
  ((a.mailbox l).getLast?.map (·.router)).getD l.router

/-- Listeners have addresses and strands of their own, all tasks are for listeners of the table and
wait on the strand of their listener, and the last of them brings the current router. -/
structure Inv (a : Actors R) : Prop where
  defined : a.undefined = []
  held : ∀ k, ∀ task ∈ a.strands k, a.isFree task.address = false
  fresh : ∀ k, a.made ≤ k → a.strands k = []
  strand_lt : ∀ n l, a.listeners.lookup n = some l → l.strand < a.made
  address_inj : ∀ n n' l l', a.listeners.lookup n = some l → a.listeners.lookup n' = some l' →
    l.address = l'.address → n = n'
  own : ∀ n l k task, a.listeners.lookup n = some l → task ∈ a.strands k →
    task.address = l.address → k = l.strand
  latest : ∀ n l, a.listeners.lookup n = some l → a.destined l = a.router

variable {a b : Actors R}

theorem isFree_eq_false_iff {address : ℕ} :
    a.isFree address = false ↔ ∃ n l, a.listeners.lookup n = some l ∧ l.address = address := by
  simp only [isFree, List.all_eq_false, decide_eq_true_eq, not_not]
  constructor
  · rintro ⟨⟨n, l⟩, he, rfl⟩
    exact ⟨n, l, AList.mem_lookup_iff.mpr he, rfl⟩
  · rintro ⟨n, l, hl, rfl⟩
    exact ⟨⟨n, l⟩, AList.mem_lookup_iff.mp hl, rfl⟩

theorem inv_start (router : R) : (start router).Inv where
  defined := rfl
  held := by simp [start]
  fresh := by simp [start]
  strand_lt := by simp [start]
  address_inj := by simp [start]
  own := by simp [start]
  latest := by simp [start]

/-- The invariant says more than convergence. -/
theorem Inv.converged (h : a.Inv) : a.Converged := by
  intro n l hl hwaiting
  have hempty : a.mailbox l = [] := by
    rw [mailbox, List.filter_eq_nil_iff]
    intro task htask haddress
    exact hwaiting ⟨l.strand, task, htask, by simpa using haddress⟩
  have hlatest := h.latest n l hl
  rwa [destined, hempty] at hlatest

theorem mem_posts {router : R} {k : ℕ} {task : Task R} :
    task ∈ a.posts router k ↔ ∃ n l, a.listeners.lookup n = some l ∧ l.strand = k
      ∧ task = ⟨l.address, router⟩ := by
  simp only [posts, List.mem_map, List.mem_filter, decide_eq_true_eq]
  constructor
  · rintro ⟨e, ⟨he, hk⟩, rfl⟩
    exact ⟨e.1, e.2, AList.mem_lookup_iff.mpr he, hk, rfl⟩
  · rintro ⟨n, l, hl, hk, rfl⟩
    exact ⟨⟨n, l⟩, ⟨AList.mem_lookup_iff.mp hl, hk⟩, rfl⟩

/-- The new router is the last one on the way to every listener. -/
theorem Inv.update (h : a.Inv) (router : R) : (a.update router).Inv where
  defined := h.defined
  held := by
    intro k task htask
    rcases List.mem_append.mp htask with hold | hnew
    · exact h.held k task hold
    · obtain ⟨n, l, hl, -, rfl⟩ := mem_posts.mp hnew
      exact isFree_eq_false_iff.mpr ⟨n, l, hl, rfl⟩
  fresh := by
    intro k hk
    have hposts : a.posts router k = [] := by
      rw [List.eq_nil_iff_forall_not_mem]
      intro task htask
      obtain ⟨n, l, hl, rfl, -⟩ := mem_posts.mp htask
      exact absurd (h.strand_lt n l hl) (Nat.not_lt.mpr hk)
    simp [Actors.update, h.fresh k hk, hposts]
  strand_lt := h.strand_lt
  address_inj := h.address_inj
  own := by
    intro n l k task hl htask haddress
    rcases List.mem_append.mp htask with hold | hnew
    · exact h.own n l k task hl hold haddress
    · obtain ⟨n', l', hl', rfl, rfl⟩ := mem_posts.mp hnew
      obtain rfl := h.address_inj n' n l' l hl' hl haddress
      obtain rfl := Option.some.inj (hl'.symm.trans hl)
      rfl
  latest := by
    intro n l hl
    -- everything the update posts to the listener carries the new router, and there is a task
    have hmailbox : (a.update router).mailbox l = a.mailbox l
        ++ (a.posts router l.strand).filter fun task => task.address = l.address :=
      List.filter_append ..
    have hmem : (⟨l.address, router⟩ : Task R) ∈ (a.posts router l.strand).filter fun task =>
        task.address = l.address := by
      rw [List.mem_filter]
      exact ⟨mem_posts.mpr ⟨n, l, hl, rfl, rfl⟩, by simp⟩
    obtain ⟨last, hlast⟩ := Option.isSome_iff_exists.mp
      (List.getLast?_isSome.mpr (List.ne_nil_of_mem hmem))
    have hrouter : last.router = router := by
      obtain ⟨-, -, -, -, rfl⟩ := mem_posts.mp (List.mem_filter.mp (List.mem_of_getLast? hlast)).1
      rfl
    rw [destined, hmailbox, List.getLast?_append, hlast]
    exact hrouter

/-- The address of a new listener is that of no other name. -/
theorem Inv.name_of_address (h : a.Inv) {name n : Bytes} {address x : ℕ} {l : Routed R}
    (hx : a.addressOf name address = some x) (hl : a.listeners.lookup n = some l)
    (haddress : l.address = x) : n = name := by
  unfold addressOf at hx
  split at hx
  · rename_i l' hl'
    obtain rfl := Option.some.inj hx
    exact h.address_inj n name l l' hl hl' haddress
  · split at hx
    · rename_i hfree
      obtain rfl := Option.some.inj hx
      have hnot : a.isFree address = false := isFree_eq_false_iff.mpr ⟨n, l, hl, haddress⟩
      rw [hfree] at hnot
      cases hnot
    · cases hx

/-- A new listener starts with the current router and an empty mailbox. -/
theorem Inv.put (h : a.Inv) {name : Bytes} {address : ℕ} {x : ℕ}
    (hx : a.addressOf name address = some x) (hwaiting : ¬a.Waiting x) : (a.put name x).Inv where
  defined := h.defined
  held := by
    intro k task htask
    obtain ⟨n, l, hl, haddress⟩ := isFree_eq_false_iff.mp (h.held k task htask)
    have hn : n ≠ name := by
      rintro rfl
      -- it would wait for the address of the listener that is replaced
      rw [addressOf, hl] at hx
      exact hwaiting ⟨k, task, htask, haddress.symm.trans (Option.some.inj hx)⟩
    refine isFree_eq_false_iff.mpr ⟨n, l, ?_, haddress⟩
    rw [Actors.put, AList.lookup_insert_ne hn]
    exact hl
  fresh := fun k hk => h.fresh k (Nat.le_of_succ_le hk)
  strand_lt := by
    intro n l hl
    rcases Server.lookup_insert_cases hl with hold | rfl
    · exact Nat.lt_succ_of_lt (h.strand_lt n l hold)
    · exact Nat.lt_succ_self _
  address_inj := by
    intro n n' l l' hl hl' haddress
    have hname : ∀ m k, (a.put name x).listeners.lookup m = some k → k.address = x → m = name := by
      intro m k hk hkx
      by_cases hm : m = name
      · exact hm
      · rw [Actors.put, AList.lookup_insert_ne hm] at hk
        exact h.name_of_address hx hk hkx
    rcases Server.lookup_insert_cases hl with hold | rfl
    · rcases Server.lookup_insert_cases hl' with hold' | rfl
      · exact h.address_inj n n' l l' hold hold' haddress
      · rw [hname n l hl haddress, hname n' _ hl' rfl]
    · rw [hname n _ hl rfl, hname n' l' hl' haddress.symm]
  own := by
    intro n l k task hl htask haddress
    rcases Server.lookup_insert_cases hl with hold | rfl
    · exact h.own n l k task hold htask haddress
    · exact absurd ⟨k, task, htask, haddress⟩ hwaiting
  latest := by
    intro n l hl
    rcases Server.lookup_insert_cases hl with hold | rfl
    · exact h.latest n l hold
    · have hempty : (a.put name x).mailbox ⟨x, a.made, a.router⟩ = [] := by
        rw [mailbox, show (a.put name x).strands a.made = [] from h.fresh _ (Nat.le_refl _)]
        rfl
      rw [destined, hempty]
      rfl

theorem Inv.delete (h : a.Inv) {name : Bytes}
    (hcareful : ∀ l, a.listeners.lookup name = some l → ¬a.Waiting l.address) :
    (a.delete name).Inv where
  defined := h.defined
  held := by
    intro k task htask
    obtain ⟨n, l, hl, haddress⟩ := isFree_eq_false_iff.mp (h.held k task htask)
    have hn : n ≠ name := by
      rintro rfl
      exact hcareful l hl ⟨k, task, htask, haddress.symm⟩
    refine isFree_eq_false_iff.mpr ⟨n, l, ?_, haddress⟩
    rw [Actors.delete, AList.lookup_erase_ne hn]
    exact hl
  fresh := h.fresh
  strand_lt := fun n l hl => h.strand_lt n l (Server.lookup_of_lookup_erase hl)
  address_inj := fun n n' l l' hl hl' => h.address_inj n n' l l'
    (Server.lookup_of_lookup_erase hl) (Server.lookup_of_lookup_erase hl')
  own := fun n l k task hl => h.own n l k task (Server.lookup_of_lookup_erase hl)
  latest := fun n l hl => h.latest n l (Server.lookup_of_lookup_erase hl)

@[simp] theorem write_address (task : Task R) (l : Routed R) :
    (write task l).address = l.address := by
  unfold write
  split <;> rfl

@[simp] theorem write_strand (task : Task R) (l : Routed R) :
    (write task l).strand = l.strand := by
  unfold write
  split <;> rfl

/-- A listener after a delivery is one from before it, written to. -/
theorem exists_of_lookup_deliver {strand : ℕ} {task : Task R} {rest : List (Task R)} {n : Bytes}
    {l : Routed R} (h : (a.deliver strand task rest).listeners.lookup n = some l) :
    ∃ l', a.listeners.lookup n = some l' ∧ l = write task l' := by
  rw [Actors.deliver, Server.lookup_mapValues, Option.map_eq_some_iff] at h
  obtain ⟨l', hl', rfl⟩ := h
  exact ⟨l', hl', rfl⟩

theorem strands_deliver_self (strand : ℕ) (task : Task R) (rest : List (Task R)) :
    (a.deliver strand task rest).strands strand = rest :=
  Function.update_self ..

theorem strands_deliver_of_ne {strand k : ℕ} (hk : k ≠ strand) (task : Task R)
    (rest : List (Task R)) : (a.deliver strand task rest).strands k = a.strands k :=
  Function.update_of_ne hk ..

/-- What waits after a delivery waited before it. -/
theorem mem_of_mem_deliver {strand k : ℕ} {task t : Task R} {rest : List (Task R)}
    (hq : a.strands strand = task :: rest) (h : t ∈ (a.deliver strand task rest).strands k) :
    t ∈ a.strands k := by
  by_cases hk : k = strand
  · subst hk
    rw [strands_deliver_self] at h
    rw [hq]
    exact List.mem_cons_of_mem _ h
  · rwa [strands_deliver_of_ne hk] at h

/-- A delivery takes the first task out of the mailbox of its listener, and leaves the others
as they are. -/
theorem mailbox_deliver {strand : ℕ} {task : Task R} {rest : List (Task R)} {l : Routed R}
    (hq : a.strands strand = task :: rest) (hown : task.address = l.address → strand = l.strand) :
    if task.address = l.address then a.mailbox l = task :: (a.deliver strand task rest).mailbox l
    else a.mailbox l = (a.deliver strand task rest).mailbox l := by
  unfold mailbox
  by_cases hstrand : l.strand = strand
  · rw [hstrand, hq, strands_deliver_self]
    split
    · rename_i haddress
      simp [haddress]
    · rename_i haddress
      simp [haddress]
  · rw [if_neg fun haddress => hstrand (hown haddress).symm, strands_deliver_of_ne hstrand]

/-- No address is freed by a delivery. -/
theorem isFree_deliver (strand : ℕ) (task : Task R) (rest : List (Task R)) (address : ℕ) :
    (a.deliver strand task rest).isFree address = a.isFree address := by
  rw [Bool.eq_iff_iff, ← Bool.not_eq_false, ← Bool.not_eq_false, not_iff_not,
    isFree_eq_false_iff, isFree_eq_false_iff]
  constructor
  · rintro ⟨n, l, hl, rfl⟩
    obtain ⟨l', hl', rfl⟩ := exists_of_lookup_deliver hl
    exact ⟨n, l', hl', (write_address task l').symm⟩
  · rintro ⟨n, l, hl, rfl⟩
    refine ⟨n, write task l, ?_, write_address task l⟩
    rw [Actors.deliver, Server.lookup_mapValues, hl, Option.map_some]

/-- A task that runs leaves the router a listener is destined for. -/
theorem Inv.deliver (h : a.Inv) {strand : ℕ} {task : Task R} {rest : List (Task R)}
    (hq : a.strands strand = task :: rest) : (a.deliver strand task rest).Inv where
  defined := by
    have hheld := h.held strand task (by rw [hq]; exact List.mem_cons_self)
    rw [Actors.deliver, hheld]
    exact h.defined
  held := by
    intro k t ht
    rw [isFree_deliver]
    exact h.held k t (mem_of_mem_deliver hq ht)
  fresh := by
    intro k hk
    rw [List.eq_nil_iff_forall_not_mem]
    intro t ht
    have hmem := mem_of_mem_deliver hq ht
    rw [h.fresh k hk] at hmem
    cases hmem
  strand_lt := by
    intro n l hl
    obtain ⟨l', hl', rfl⟩ := exists_of_lookup_deliver hl
    rw [write_strand]
    exact h.strand_lt n l' hl'
  address_inj := by
    intro n n' l l' hl hl' haddress
    obtain ⟨k, hk, rfl⟩ := exists_of_lookup_deliver hl
    obtain ⟨k', hk', rfl⟩ := exists_of_lookup_deliver hl'
    rw [write_address, write_address] at haddress
    exact h.address_inj n n' k k' hk hk' haddress
  own := by
    intro n l k t hl ht haddress
    obtain ⟨l', hl', rfl⟩ := exists_of_lookup_deliver hl
    rw [write_address] at haddress
    rw [write_strand]
    exact h.own n l' k t hl' (mem_of_mem_deliver hq ht) haddress
  latest := by
    intro n l hl
    obtain ⟨l', hl', rfl⟩ := exists_of_lookup_deliver hl
    have hown : task.address = l'.address → strand = l'.strand := fun haddress =>
      h.own n l' strand task hl' (by rw [hq]; exact List.mem_cons_self) haddress
    have hmailbox := mailbox_deliver hq hown
    have hsame : (a.deliver strand task rest).mailbox (write task l')
        = (a.deliver strand task rest).mailbox l' := by
      rw [mailbox, mailbox, write_address, write_strand]
    have hlatest := h.latest n l' hl'
    rw [destined] at hlatest
    rw [destined, hsame, ← show a.router = (a.deliver strand task rest).router from rfl, ← hlatest]
    split at hmailbox
    · rename_i haddress
      rw [hmailbox, write, if_pos haddress.symm]
      cases (a.deliver strand task rest).mailbox l' with
      | nil => rfl
      | cons t ts => simp [List.getLast?_cons]
    · rename_i haddress
      rw [hmailbox, write, if_neg fun he => haddress he.symm]

/-- **One careful event keeps the invariant.** -/
theorem Inv.exec (h : a.Inv) {e : Event R} (hcareful : a.Careful e) (hexec : a.exec e = some b) :
    b.Inv := by
  cases e with
  | update router =>
      obtain rfl := Option.some.inj hexec
      exact h.update router
  | put name address =>
      obtain ⟨x, hx, rfl⟩ := Option.map_eq_some_iff.mp hexec
      exact h.put hx (hcareful x hx)
  | delete name =>
      obtain rfl := Option.some.inj hexec
      exact h.delete hcareful
  | deliver strand =>
      rw [Actors.exec] at hexec
      split at hexec
      · cases hexec
      · rename_i task rest hq
        obtain rfl := Option.some.inj hexec
        exact h.deliver hq

/-- **Listeners converge.**  In every state of every run in which no listener is put at an
address for which a task is waiting, and no listener is deleted for which a task is waiting, no
task has written to a freed address, and a listener for which no task is waiting has the router of
the server. -/
theorem converges_of_careful (router : R) {a : Actors R}
    (h : Reaches exec Careful (start router) a) : a.undefined = [] ∧ a.Converged := by
  have hinv : a.Inv := h.invariant Inv (inv_start router) fun _ _ _ hinv hcareful hexec =>
    hinv.exec hcareful hexec
  exact ⟨hinv.defined, hinv.converged⟩

/-- A task for an address that was freed writes there when its turn comes. -/
theorem exists_undefined_of_free {k : ℕ} {task : Task R} {pre rest : List (Task R)} :
    ∀ {a : Actors R}, a.isFree task.address = true → a.strands k = pre ++ task :: rest →
      ∃ es b, run exec a es = some b ∧ task.address ∈ b.undefined := by
  induction pre with
  | nil =>
      intro a hfree hq
      have hexec : a.exec (.deliver k) = some (a.deliver k task rest) := by
        rw [exec, hq]
        rfl
      refine ⟨[.deliver k], _, by rw [run, hexec]; rfl, ?_⟩
      rw [deliver, hfree]
      exact List.mem_cons_self
  | cons t pre ih =>
      intro a hfree hq
      have hexec : a.exec (.deliver k) = some (a.deliver k t (pre ++ task :: rest)) := by
        rw [exec, hq]
        rfl
      obtain ⟨es, b, hrun, hmem⟩ :=
        ih ((isFree_deliver k t _ _).trans hfree) (strands_deliver_self ..)
      exact ⟨.deliver k :: es, b, by rw [run, hexec]; exact hrun, hmem⟩

/-- **The condition on `DELETE` is needed**: if a task is waiting for the listener, then it may run
when the listener has been destroyed. -/
theorem exists_undefined_of_delete (h : a.Inv) {name : Bytes} {l : Routed R}
    (hl : a.listeners.lookup name = some l) (hwaiting : a.Waiting l.address) :
    ∃ b, Reachable exec (a.delete name) b ∧ l.address ∈ b.undefined := by
  obtain ⟨k, task, htask, haddress⟩ := hwaiting
  obtain ⟨pre, rest, hq⟩ := List.append_of_mem htask
  have hfree : (a.delete name).isFree task.address = true := by
    rw [← Bool.not_eq_false, isFree_eq_false_iff]
    rintro ⟨n, l', hl', haddress'⟩
    have hold := Server.lookup_of_lookup_erase hl'
    obtain rfl := h.address_inj n name l' l hold hl (haddress'.trans haddress)
    rw [delete, AList.lookup_erase] at hl'
    cases hl'
  obtain ⟨es, b, hrun, hmem⟩ := exists_undefined_of_free hfree hq
  exact ⟨b, Reaches.of_run .refl hrun, haddress ▸ hmem⟩

/-- A listener is put, the router is replaced, and the task runs; routers are numbered in the
order in which they are built. -/
theorem converges_of_careful_example :
    ∃ a, Reaches exec Careful (start 0) a ∧ a.listeners.lookup (lit "in") = some ⟨0, 0, 1⟩
      ∧ a.router = 1 ∧ a.undefined = [] ∧ a.Converged := by
  have hput : ((start 0).put (lit "in") 0).exec (.update 1)
      = some (((start 0).put (lit "in") 0).update 1) := rfl
  have hrun : Reaches exec Careful (start 0) ((((start 0).put (lit "in") 0).update 1).deliver 0
      ⟨0, 1⟩ []) := by
    refine .step (.step (.step .refl (e := .put (lit "in") 0) ?_ rfl) (e := .update 1) trivial hput)
      (e := .deliver 0) trivial rfl
    rintro x - ⟨k, task, htask, -⟩
    cases htask
  exact ⟨_, hrun, rfl, rfl, converges_of_careful 0 hrun⟩

/-- The listener is put again while the task of its first strand is waiting.  The task of the
second strand runs first; the one that was left behind then brings the old router back. -/
def staleSchedule : List (Event ℕ) :=
  [.put (lit "in") 0, .update 1, .put (lit "in") 0, .update 2, .deliver 1, .deliver 0]

theorem converges_counterexample :
    ∃ a, Reachable exec (start 0) a ∧ a.undefined = [] ∧ (∀ k, a.strands k = []) ∧ a.router = 2
      ∧ a.listeners.lookup (lit "in") = some ⟨0, 1, 1⟩ ∧ ¬a.Converged := by
  have hrun : ∃ a, run exec (start 0) staleSchedule = some a ∧ a.undefined = []
      ∧ (∀ k, a.strands k = []) ∧ a.router = 2
      ∧ a.listeners.lookup (lit "in") = some ⟨0, 1, 1⟩ := by
    refine ⟨_, rfl, rfl, ?_, rfl, rfl⟩
    intro k
    match k with
    | 0 => rfl
    | 1 => rfl
    | k + 2 => rfl
  obtain ⟨a, hrun, hdefined, hstrands, hrouter, hlistener⟩ := hrun
  refine ⟨a, Reaches.of_run .refl hrun, hdefined, hstrands, hrouter, hlistener,
    fun hconverged => ?_⟩
  have hrouter' : 1 = a.router := hconverged _ _ hlistener (by simp [Waiting, hstrands])
  rw [hrouter] at hrouter'
  cases hrouter'

end Actors

/-! ## The requests of the server -/

namespace Server

variable {p : Platform} {s : Server} {i : Arrival}

/-- The listeners and the router are as before, or every listener was sent the new router. -/
def Reposted (s t : Server) : Prop :=
  (t.listeners = s.listeners ∧ t.router = s.router)
    ∨ t.listeners = s.listeners.mapValues (Listener.reroute t.router)

theorem reposted_finish : Reposted s (finish p s).2 := by
  cases h : Router.make p s.egresses s.rules s.route with
  | error f =>
      rw [finish_of_error h]
      exact Or.inl ⟨rfl, rfl⟩
  | ok router =>
      rw [finish_of_ok h]
      exact Or.inr rfl

/-- A request for anything but an ingress leaves the listeners alone, or sends the new router to
every one of them. -/
theorem reposted_handle (h : ∀ name, Target.of i.request.target ≠ .ingress name) :
    Reposted s (handle p s i).2 := by
  have hcollection : ∀ body, Reposted s (handleCollection s i.request body).2 := by
    intro body
    unfold handleCollection
    split <;> exact Or.inl ⟨rfl, rfl⟩
  have hfinish : ∀ {s₁ : Server}, s₁.listeners = s.listeners → s₁.router = s.router →
      Reposted s (finish p s₁).2 := by
    intro s₁ hlisteners hrouter
    have hfinish := @reposted_finish p s₁
    rwa [Reposted, hlisteners, hrouter] at hfinish
  unfold handle
  split
  · exact hcollection _
  · rename_i name hname
    exact absurd hname (h name)
  · exact hcollection _
  · unfold handleEgress
    dsimp only
    repeat' split
    all_goals first
      | exact Or.inl ⟨rfl, rfl⟩
      | exact hfinish rfl rfl
  · exact hcollection _
  · unfold handleRule
    dsimp only
    repeat' split
    all_goals first
      | exact Or.inl ⟨rfl, rfl⟩
      | exact hfinish rfl rfl
  · unfold handleRoute
    repeat' split
    all_goals first
      | exact Or.inl ⟨rfl, rfl⟩
      | exact hfinish rfl rfl
  · exact Or.inl ⟨rfl, rfl⟩

/-- The system has the router and the names of the server. -/
def Tracks (a : Actors Router) (s : Server) : Prop :=
  a.router = s.router ∧ ∀ name, name ∈ a.listeners ↔ name ∈ s.listeners

theorem mem_mapValues {V : Type} (f : V → V) (t : ValueMap V) (name : Bytes) :
    name ∈ t.mapValues f ↔ name ∈ t := by
  rw [← AList.lookup_isSome, ← AList.lookup_isSome, lookup_mapValues, Option.isSome_map]

/-- **A request is an event, or none.**  A new listener may get any address that is free. -/
theorem tracks_handle {a : Actors Router} (h : Tracks a s) {address : ℕ}
    (hfree : ∀ name l, a.listeners.lookup name = some l → l.address ≠ address) :
    ∃ b, (b = a ∨ ∃ e, a.exec e = some b) ∧ Tracks b (handle p s i).2 := by
  obtain ⟨hrouter, hnames⟩ := h
  by_cases htarget : ∃ name, Target.of i.request.target = .ingress name
  · obtain ⟨name, htarget⟩ := htarget
    simp only [handle, htarget]
    unfold handleIngress
    split
    · refine ⟨a.delete name, Or.inr ⟨.delete name, rfl⟩, hrouter, fun n => ?_⟩
      simp only [Actors.delete, AList.mem_erase, hnames]
    · exact ⟨a, Or.inl rfl, hrouter, hnames⟩
    · split
      · exact ⟨a, Or.inl rfl, hrouter, hnames⟩
      · split
        · exact ⟨a, Or.inl rfl, hrouter, hnames⟩
        · have haddress : ∃ x, a.addressOf name address = some x := by
            unfold Actors.addressOf
            split
            · exact ⟨_, rfl⟩
            · rw [if_pos]
              · exact ⟨_, rfl⟩
              · rw [Actors.isFree, List.all_eq_true]
                intro e he
                simpa using hfree e.1 e.2 (AList.mem_lookup_iff.mpr he)
          obtain ⟨x, hx⟩ := haddress
          refine ⟨a.put name x, Or.inr ⟨.put name address, ?_⟩, hrouter, fun n => ?_⟩
          · rw [Actors.exec, hx]
            rfl
          · simp only [Actors.put, AList.mem_insert, hnames]
    · exact ⟨a, Or.inl rfl, hrouter, hnames⟩
  · push Not at htarget
    rcases reposted_handle (p := p) (s := s) htarget with ⟨hlisteners, hsame⟩ | hlisteners
    · exact ⟨a, Or.inl rfl, by rw [hsame, hrouter], fun n => by rw [hlisteners]; exact hnames n⟩
    · refine ⟨a.update (handle p s i).2.router, Or.inr ⟨.update _, rfl⟩, rfl, fun n => ?_⟩
      rw [hlisteners, mem_mapValues]
      exact hnames n

end Server

end Pichi
