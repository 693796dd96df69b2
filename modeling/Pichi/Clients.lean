/-
# Clients of the API

`Server::do_session` turns a connection away when its remote endpoint is in the pool of
`TcpClients`: the pool is to hold the local endpoints of the `Direct` egresses, so that nobody
reaches the API through the proxy.  The pool belongs to a strand.  `Direct::connect` posts the
insertion of the local endpoint after it was resumed, `Direct::close` posts the removal, and a
session of the API asks the pool on the same strand; in between everything else may run.

A session of the proxy goes through `Session::handshake` and `bridge`, as far as they concern
its egress.  It ends without closing the egress when it fails in the handshake, and when the
first `close` of a `bridge` throws.  Endpoints are of an arbitrary type.

**Main results**:
* `shut_of_careful`: in every run in which no check is posted or waiting for an endpoint whose
  connection is established and not yet registered, and no egress gets a local endpoint that
  another one has, no session of the API passes the check while a `Direct` egress has its remote
  endpoint;
* `exact_of_careful`: in every run in which `confirm` does not fail, no session ends before its
  egress is closed, and no egress gets a local endpoint that another one has, the pool holds
  exactly the local endpoints of the connected egresses whenever no task is waiting
  (`passed_of_careful`: an unrelated client is not refused).
-/
import Mathlib.Data.Finset.Basic
import Pichi.Interleave

namespace Pichi

open Interleave

/-! ## The parties -/

namespace Clients

/-- The tasks on the strand of `TcpClients`; a check is for a session of the API. -/
inductive Task (α : Type) : Type where
  | insert (x : α)
  | remove (x : α)
  | check (j : ℕ) (y : α)

/-- Where a session of the proxy is, with the local endpoint of its egress. -/
inductive Phase (α : Type) : Type where
  /-- In `read_remote` or `route`. -/
  | routing
  /-- In `connect`, before the connection is established. -/
  | connecting
  /-- In `connect`: the connection is established, the coroutine was not resumed. -/
  | established (x : α)
  /-- `connect` has completed, `confirm` has not. -/
  | confirming (x : α)
  | bridging (x : α)
  /-- The egress is closed; the session waits for its other half. -/
  | closing
  | ended

/-- What a session of the proxy does next. -/
inductive Move (α : Type) : Type where
  | route (ok : Bool)
  | establish (x : α)
  | connectFails
  | resume
  | confirm (ok : Bool)
  | close
  | leave

/-- A session of the API, with its remote endpoint. -/
inductive Api (α : Type) : Type where
  | idle
  | accepted (y : α)
  | asked (y : α)
  | passed (y : α)
  | refused (y : α)

/-- What can happen. -/
inductive Event (α : Type) : Type where
  /-- A session of the proxy makes a move. -/
  | session (k : ℕ) (move : Move α)
  /-- `serve` accepts a connection. -/
  | accept (j : ℕ) (y : α)
  /-- `do_session` posts the check. -/
  | ask (j : ℕ)
  /-- The first task of the strand runs. -/
  | deliver

variable {α : Type}

/-- One move: the next phase, and the tasks that are posted. -/
def Phase.move : Phase α → Move α → Option (Phase α × List (Task α))
  | .routing, .route true => some (.connecting, [])
  | .routing, .route false => some (.ended, [])
  | .connecting, .establish x => some (.established x, [])
  | .connecting, .connectFails => some (.ended, [])
  | .established _, .connectFails => some (.ended, [])
  | .established x, .resume => some (.confirming x, [.insert x])
  | .confirming x, .confirm true => some (.bridging x, [])
  -- `handshake` throws and the egress is destroyed
  | .confirming _, .confirm false => some (.ended, [])
  | .bridging x, .close => some (.closing, [.remove x])
  -- the ingress could not be closed, and the other `bridge` is cancelled
  | .bridging _, .leave => some (.ended, [])
  | .closing, .leave => some (.ended, [])
  | _, _ => none

/-- The local endpoint of the egress, while its connection is open. -/
def Phase.endpoint : Phase α → Option α
  | .established x | .confirming x | .bridging x => some x
  | _ => none

/-- The local endpoint of an egress whose `connect` has completed. -/
def Phase.connected : Phase α → Option α
  | .confirming x | .bridging x => some x
  | _ => none

/-- What a move can do. -/
theorem Phase.move_cases {p q : Phase α} {m : Move α} {tasks : List (Task α)}
    (h : p.move m = some (q, tasks)) :
    (∃ x, p = .established x ∧ q = .confirming x ∧ tasks = [.insert x])
      ∨ (∃ x, p = .bridging x ∧ q = .closing ∧ tasks = [.remove x])
      ∨ (∃ x, m = .establish x ∧ p = .connecting ∧ q = .established x ∧ tasks = [])
      ∨ (q = .ended ∧ tasks = []
          ∧ (p.connected = none ∨ m = .confirm false ∨ m = .leave ∧ p.endpoint ≠ none))
      ∨ (q.endpoint = p.connected ∧ q.connected = p.connected ∧ tasks = []) := by
  unfold Phase.move at h
  split at h
  all_goals try obtain ⟨rfl, rfl⟩ := Prod.mk.inj (Option.some.inj h)
  · simp [Phase.endpoint, Phase.connected]
  · simp [Phase.connected]
  · simp
  · simp [Phase.connected]
  · simp [Phase.connected]
  · simp
  · simp [Phase.endpoint, Phase.connected]
  · simp
  · simp
  · simp [Phase.endpoint]
  · simp [Phase.connected]
  · cases h

theorem Phase.endpoint_of_connected {p : Phase α} {x : α} (h : p.connected = some x) :
    p.endpoint = some x := by
  cases p <;> first | exact h | cases h

theorem Phase.established_or_connected {p : Phase α} {x : α} (h : p.endpoint = some x) :
    p = .established x ∨ p.connected = some x := by
  cases p with
  | established y =>
      obtain rfl := Option.some.inj h
      exact Or.inl rfl
  | confirming y | bridging y => exact Or.inr h
  | routing | connecting | closing | ended => cases h

/-- A connection is established, or it was open before. -/
theorem Phase.endpoint_of_move {p q : Phase α} {m : Move α} {tasks : List (Task α)} {x : α}
    (h : p.move m = some (q, tasks)) (hx : q.endpoint = some x) :
    p.endpoint = some x ∨ m = .establish x := by
  obtain ⟨y, rfl, rfl, -⟩ | ⟨y, rfl, rfl, -⟩ | ⟨y, rfl, rfl, rfl, -⟩ | ⟨rfl, -⟩ | ⟨hq, -, -⟩ :=
    move_cases h
  · exact Or.inl hx
  · cases hx
  · obtain rfl := Option.some.inj hx
    exact Or.inr rfl
  · cases hx
  · exact Or.inl (endpoint_of_connected (hq.symm.trans hx))

end Clients

/-- The sessions of the proxy, the sessions of the API, and the strand of `TcpClients` with the
pool, oldest task first. -/
structure Clients (α : Type) where
  sessions : ℕ → Clients.Phase α
  apis : ℕ → Clients.Api α
  queue : List (Clients.Task α)
  pool : Finset α

namespace Clients

variable {α : Type}

section System

variable [DecidableEq α]

/-- No session has begun. -/
def start : Clients α := ⟨fun _ => .routing, fun _ => .idle, [], ∅⟩

/-- What a task does to the pool. -/
def Task.apply (pool : Finset α) : Task α → Finset α
  | .insert x => Insert.insert x pool
  | .remove x => pool.erase x
  | .check _ _ => pool

/-- What a task does to the sessions of the API: `assertFalse(co_await svc.contains(…))`. -/
def Task.answer (pool : Finset α) (apis : ℕ → Api α) : Task α → ℕ → Api α
  | .check j y => Function.update apis j (if y ∈ pool then .refused y else .passed y)
  | _ => apis

/-- A session of the proxy made a move. -/
def moved (c : Clients α) (k : ℕ) (r : Phase α × List (Task α)) : Clients α :=
  { c with sessions := Function.update c.sessions k r.1, queue := c.queue ++ r.2 }

/-- A task of the strand ran. -/
def delivered (c : Clients α) (task : Task α) (rest : List (Task α)) : Clients α :=
  { c with apis := task.answer c.pool c.apis, queue := rest, pool := task.apply c.pool }

/-- One event. -/
def exec (c : Clients α) : Event α → Option (Clients α)
  | .session k m => ((c.sessions k).move m).map (c.moved k)
  | .accept j y =>
    match c.apis j with
    | .idle => some { c with apis := Function.update c.apis j (.accepted y) }
    | _ => none
  | .ask j =>
    match c.apis j with
    | .accepted y =>
      some { c with apis := Function.update c.apis j (.asked y), queue := c.queue ++ [.check j y] }
    | _ => none
  | .deliver =>
    match c.queue with
    | [] => none
    | task :: rest => some (c.delivered task rest)

/-! ## What is asked of a run -/

/-- No session of the API passes the check while a `Direct` egress has its remote endpoint. -/
def Shut (c : Clients α) : Prop :=
  ∀ d j y, c.exec .deliver = some d → c.apis j ≠ .passed y → d.apis j = .passed y →
    ∀ k, (c.sessions k).endpoint ≠ some y

/-- When no task is waiting, the pool is the set of the local endpoints of the connected
egresses. -/
def Exact (c : Clients α) : Prop :=
  c.queue = [] → ∀ x, x ∈ c.pool ↔ ∃ k, (c.sessions k).connected = some x

/-- No other egress has this local endpoint. -/
def Free (c : Clients α) (x : α) : Prop := ∀ k, (c.sessions k).endpoint ≠ some x

/-- No check is posted or waiting for an endpoint whose connection is established and not yet
registered, and local endpoints are not shared. -/
def CheckedLate (c : Clients α) : Event α → Prop
  | .session _ (.establish x) => c.Free x ∧ ∀ j, .check j x ∉ c.queue
  | .ask j => ∀ y k, c.apis j = .accepted y → c.sessions k ≠ .established y
  | _ => True

/-- `confirm` does not fail, a session ends after its egress was closed, and local endpoints are
not shared. -/
def ClosedLast (c : Clients α) : Event α → Prop
  | .session _ (.establish x) => c.Free x
  | .session _ (.confirm ok) => ok = true
  | .session k .leave => (c.sessions k).endpoint = none
  | _ => True

end System

/-! ## Local endpoints are not shared -/

/-- An open connection has its local endpoint for itself. -/
def Unshared (c : Clients α) : Prop :=
  ∀ i k x, (c.sessions i).endpoint = some x → (c.sessions k).endpoint = some x → i = k

variable {c d : Clients α} {k : ℕ} {m : Move α} {q : Phase α} {tasks : List (Task α)}

theorem sessions_moved_self (c : Clients α) (k : ℕ) (q : Phase α) (tasks : List (Task α)) :
    (c.moved k (q, tasks)).sessions k = q :=
  Function.update_self ..

theorem sessions_moved_of_ne {i : ℕ} (h : i ≠ k) (c : Clients α) (q : Phase α)
    (tasks : List (Task α)) : (c.moved k (q, tasks)).sessions i = c.sessions i :=
  Function.update_of_ne h ..

/-- An endpoint that is open after a move was open before, or is new. -/
theorem endpoint_of_moved (hmove : (c.sessions k).move m = some (q, tasks)) {i : ℕ} {x : α}
    (hx : ((c.moved k (q, tasks)).sessions i).endpoint = some x) :
    (c.sessions i).endpoint = some x ∨ i = k ∧ m = .establish x := by
  by_cases hi : i = k
  · subst hi
    rw [sessions_moved_self] at hx
    rcases Phase.endpoint_of_move hmove hx with hold | hnew
    · exact Or.inl hold
    · exact Or.inr ⟨rfl, hnew⟩
  · rw [sessions_moved_of_ne hi] at hx
    exact Or.inl hx

theorem Unshared.moved (h : c.Unshared) (hmove : (c.sessions k).move m = some (q, tasks))
    (hfree : ∀ x, m = .establish x → c.Free x) : (c.moved k (q, tasks)).Unshared := by
  intro i j x hi hj
  rcases endpoint_of_moved hmove hi with hold | ⟨rfl, hm⟩
  · rcases endpoint_of_moved hmove hj with hold' | ⟨rfl, hm⟩
    · exact h i j x hold hold'
    · exact absurd hold (hfree x hm i)
  · rcases endpoint_of_moved hmove hj with hold' | ⟨rfl, -⟩
    · exact absurd hold' (hfree x hm j)
    · rfl

/-! ## The pool that will be -/

variable [DecidableEq α]

/-- The pool after all the waiting tasks. -/
def settle (pool : Finset α) (queue : List (Task α)) : Finset α := queue.foldl Task.apply pool

@[simp] theorem settle_nil (pool : Finset α) : settle pool [] = pool := rfl

@[simp] theorem settle_append (pool : Finset α) (queue tasks : List (Task α)) :
    settle pool (queue ++ tasks) = settle (settle pool queue) tasks :=
  List.foldl_append

@[simp] theorem settle_singleton (pool : Finset α) (task : Task α) :
    settle pool [task] = task.apply pool := rfl

/-- The invariant behind the exact pool. -/
structure Balanced (c : Clients α) : Prop where
  unshared : c.Unshared
  exact : ∀ x, x ∈ settle c.pool c.queue ↔ ∃ k, (c.sessions k).connected = some x

theorem balanced_start : (start : Clients α).Balanced where
  unshared := by simp [Unshared, start, Phase.endpoint]
  exact := by simp [start, Phase.connected]

theorem Balanced.exact_pool (h : c.Balanced) : c.Exact := by
  intro hqueue x
  rw [← h.exact x, hqueue, settle_nil]

/-- A move that posts nothing and leaves the connection as connected as it was. -/
theorem Balanced.moved_nil (h : c.Balanced) (hunshared : (c.moved k (q, [])).Unshared)
    (hconnected : q.connected = (c.sessions k).connected) : (c.moved k (q, [])).Balanced where
  unshared := hunshared
  exact := by
    intro y
    have hall : ∀ i, ((c.moved k (q, [])).sessions i).connected = (c.sessions i).connected := by
      intro i
      by_cases hi : i = k
      · rw [hi, sessions_moved_self, hconnected]
      · rw [sessions_moved_of_ne hi]
    simp only [hall, ← h.exact]
    simp [Clients.moved]

/-- `connect` has completed: the endpoint will be in the pool. -/
theorem Balanced.moved_insert (h : c.Balanced) {x : α} (hp : c.sessions k = .established x)
    (hunshared : (c.moved k (.confirming x, [.insert x])).Unshared) :
    (c.moved k (.confirming x, [.insert x])).Balanced where
  unshared := hunshared
  exact := by
    intro y
    have hk : (c.sessions k).connected = none := by rw [hp]; rfl
    have hpool : settle (c.moved k (.confirming x, [.insert x])).pool
        (c.moved k (.confirming x, [.insert x])).queue = insert x (settle c.pool c.queue) :=
      settle_append ..
    rw [hpool, Finset.mem_insert, h.exact]
    constructor
    · rintro (rfl | ⟨i, hi⟩)
      · exact ⟨k, by rw [sessions_moved_self]; rfl⟩
      · have hne : i ≠ k := by
          rintro rfl
          rw [hk] at hi
          cases hi
        exact ⟨i, by rw [sessions_moved_of_ne hne]; exact hi⟩
    · rintro ⟨i, hi⟩
      by_cases hne : i = k
      · rw [hne, sessions_moved_self] at hi
        exact Or.inl (Option.some.inj hi).symm
      · rw [sessions_moved_of_ne hne] at hi
        exact Or.inr ⟨i, hi⟩

/-- The egress is closed: the endpoint, which nobody else has, will not be in the pool. -/
theorem Balanced.moved_remove (h : c.Balanced) {x : α} (hp : c.sessions k = .bridging x)
    (hunshared : (c.moved k (.closing, [.remove x])).Unshared) :
    (c.moved k (.closing, [.remove x])).Balanced where
  unshared := hunshared
  exact := by
    intro y
    have hk : (c.sessions k).connected = some x := by rw [hp]; rfl
    have hpool : settle (c.moved k (.closing, [.remove x])).pool
        (c.moved k (.closing, [.remove x])).queue = (settle c.pool c.queue).erase x :=
      settle_append ..
    rw [hpool, Finset.mem_erase, h.exact]
    constructor
    · rintro ⟨hyx, i, hi⟩
      have hne : i ≠ k := by
        rintro rfl
        exact hyx (Option.some.inj (hi.symm.trans hk))
      exact ⟨i, by rw [sessions_moved_of_ne hne]; exact hi⟩
    · rintro ⟨i, hi⟩
      have hne : i ≠ k := by
        rintro rfl
        rw [sessions_moved_self] at hi
        cases hi
      rw [sessions_moved_of_ne hne] at hi
      refine ⟨?_, i, hi⟩
      rintro rfl
      exact hne (h.unshared i k y (Phase.endpoint_of_connected hi)
        (Phase.endpoint_of_connected hk))

/-- Every move adds to the pool, or takes from it, what the session then has, or had. -/
theorem Balanced.moved (h : c.Balanced) (hmove : (c.sessions k).move m = some (q, tasks))
    (hlast : c.ClosedLast (.session k m)) : (c.moved k (q, tasks)).Balanced := by
  have hunshared := h.unshared.moved hmove (by rintro x rfl; exact hlast)
  obtain ⟨x, hp, rfl, rfl⟩ | ⟨x, hp, rfl, rfl⟩ | ⟨x, rfl, hp, rfl, rfl⟩ | ⟨rfl, rfl, hend⟩
    | ⟨-, hq, rfl⟩ := Phase.move_cases hmove
  · exact h.moved_insert hp hunshared
  · exact h.moved_remove hp hunshared
  · apply h.moved_nil hunshared
    rw [hp]
    rfl
  · apply h.moved_nil hunshared
    rcases hend with hnone | rfl | ⟨rfl, hopen⟩
    · rw [hnone]
      rfl
    · cases hlast
    · exact absurd hlast hopen
  · exact h.moved_nil hunshared hq

/-- **One event keeps the balance.** -/
theorem Balanced.exec (h : c.Balanced) {e : Event α} (hlast : c.ClosedLast e)
    (hexec : c.exec e = some d) : d.Balanced := by
  cases e with
  | session k m =>
      obtain ⟨⟨q, tasks⟩, hmove, rfl⟩ := Option.map_eq_some_iff.mp hexec
      exact h.moved hmove hlast
  | accept j y =>
      rw [Clients.exec] at hexec
      split at hexec
      · obtain rfl := Option.some.inj hexec
        exact ⟨h.unshared, h.exact⟩
      · cases hexec
  | ask j =>
      rw [Clients.exec] at hexec
      split at hexec
      · obtain rfl := Option.some.inj hexec
        refine ⟨h.unshared, fun x => ?_⟩
        rw [← h.exact x, settle_append]
        rfl
      · cases hexec
  | deliver =>
      rw [Clients.exec] at hexec
      split at hexec
      · cases hexec
      · rename_i task rest hqueue
        obtain rfl := Option.some.inj hexec
        refine ⟨h.unshared, fun x => ?_⟩
        have hexact := h.exact x
        rw [hqueue] at hexact
        exact hexact

theorem balanced_of_careful (h : Reaches exec ClosedLast start c) : c.Balanced :=
  h.invariant Balanced balanced_start fun _ _ _ hinv hlast hexec => hinv.exec hlast hexec

/-- **The pool is exact.**  In every state of every run in which `confirm` does not fail, no
session ends before its egress is closed, and no egress gets a local endpoint that another one
has: when no task is waiting, the pool holds exactly the local endpoints of the egresses whose
`connect` has completed and that are not closed. -/
theorem exact_of_careful (h : Reaches exec ClosedLast start c) : c.Exact :=
  (balanced_of_careful h).exact_pool

/-- A session that has its egress connected, and registered. -/
theorem exact_of_careful_example :
    ∃ c : Clients ℕ, Reaches exec ClosedLast start c ∧ c.sessions 0 = .confirming 5
      ∧ c.queue = [] ∧ c.pool = {5} ∧ c.Exact := by
  have hfree : ∀ c, (start : Clients ℕ).exec (.session 0 (.route true)) = some c → c.Free 5 := by
    intro c hexec
    obtain rfl := Option.some.inj hexec
    rintro (_ | k) hk <;> cases hk
  have hrun : ∃ c : Clients ℕ, Reaches exec ClosedLast start c ∧ c.sessions 0 = .confirming 5
      ∧ c.queue = [] ∧ c.pool = {5} := by
    refine ⟨_, .step (.step (.step (.step .refl (e := .session 0 (.route true)) trivial rfl)
      (e := .session 0 (.establish 5)) (hfree _ rfl) rfl) (e := .session 0 .resume) trivial rfl)
      (e := .deliver) trivial rfl, rfl, rfl, rfl⟩
  obtain ⟨c, hreach, hsession, hqueue, hpool⟩ := hrun
  exact ⟨c, hreach, hsession, hqueue, hpool, exact_of_careful hreach⟩

/-- What is in the pool stays there, if its removal is not waiting. -/
theorem mem_settle {x : α} {queue : List (Task α)} :
    ∀ {pool : Finset α}, x ∈ pool → .remove x ∉ queue → x ∈ settle pool queue := by
  induction queue with
  | nil => exact fun hx _ => hx
  | cons task queue ih =>
      intro pool hx hremove
      rw [List.mem_cons, not_or] at hremove
      refine ih ?_ hremove.2
      cases task with
      | insert y => exact Finset.mem_insert_of_mem hx
      | remove y =>
          refine Finset.mem_erase.mpr ⟨?_, hx⟩
          rintro rfl
          exact hremove.1 rfl
      | check j y => exact hx

/-- **An unrelated client is not refused.**  In every such run a session of the API passes its check
if its remote endpoint is not the local endpoint of a connected egress, nor that of one whose
removal is still waiting. -/
theorem passed_of_careful (h : Reaches exec ClosedLast start c) {j : ℕ} {y : α}
    {rest : List (Task α)} (hqueue : c.queue = .check j y :: rest)
    (hnone : ∀ k, (c.sessions k).connected ≠ some y) (hremove : .remove y ∉ rest) :
    ∃ d, c.exec .deliver = some d ∧ d.apis j = .passed y := by
  have hpool : y ∉ c.pool := by
    intro hmem
    have hsettled : y ∈ settle c.pool c.queue := by
      refine mem_settle hmem ?_
      rw [hqueue]
      simpa using hremove
    obtain ⟨k, hk⟩ := ((balanced_of_careful h).exact y).mp hsettled
    exact hnone k hk
  refine ⟨c.delivered (.check j y) rest, ?_, ?_⟩
  · rw [Clients.exec, hqueue]
  · simp only [delivered, Task.answer, if_neg hpool, Function.update_self]

/-- `confirm` fails after `connect` has completed; then a client of the API comes along that has
the address and port of the egress. -/
def staleSchedule : List (Event ℕ) :=
  [.session 0 (.route true), .session 0 (.establish 5), .session 0 .resume,
    .session 0 (.confirm false), .deliver, .accept 0 5, .ask 0, .deliver]

/-- The session has ended and no task is waiting, but its endpoint stays in the pool, and the
client is refused. -/
theorem exact_pool_counterexample :
    ∃ c : Clients ℕ, Reachable exec start c ∧ c.queue = [] ∧ c.pool = {5}
      ∧ (∀ k, (c.sessions k).endpoint = none) ∧ c.apis 0 = .refused 5 ∧ ¬c.Exact := by
  have hrun : ∃ c : Clients ℕ, run exec start staleSchedule = some c ∧ c.queue = []
      ∧ c.pool = {5} ∧ (∀ k, (c.sessions k).endpoint = none) ∧ c.apis 0 = .refused 5 := by
    refine ⟨_, rfl, rfl, rfl, ?_, rfl⟩
    rintro (_ | k) <;> rfl
  obtain ⟨c, hrun, hqueue, hpool, hsessions, hapi⟩ := hrun
  refine ⟨c, Reaches.of_run .refl hrun, hqueue, hpool, hsessions, hapi, fun hexact => ?_⟩
  obtain ⟨k, hk⟩ := (hexact hqueue 5).mp (by simp [hpool])
  have hopen := Phase.endpoint_of_connected hk
  rw [hsessions k] at hopen
  cases hopen

/-! ## Checks -/

/-- Every waiting check for the endpoint will find it in the pool. -/
def Guarded (x : α) : Finset α → List (Task α) → Prop
  | _, [] => True
  | pool, task :: queue => (∀ j, task = .check j x → x ∈ pool) ∧ Guarded x (task.apply pool) queue

theorem guarded_of_forall_not_mem {x : α} {queue : List (Task α)} :
    ∀ {pool : Finset α}, (∀ j, .check j x ∉ queue) → Guarded x pool queue := by
  induction queue with
  | nil => exact fun _ => trivial
  | cons task queue ih =>
      intro pool h
      constructor
      · rintro j rfl
        exact absurd List.mem_cons_self (h j)
      · exact ih fun j hj => h j (List.mem_cons_of_mem _ hj)

/-- A task is posted after all the others. -/
theorem guarded_append {x : α} {task : Task α} {queue : List (Task α)} :
    ∀ {pool : Finset α}, Guarded x pool (queue ++ [task])
      ↔ Guarded x pool queue ∧ ∀ j, task = .check j x → x ∈ settle pool queue := by
  induction queue with
  | nil =>
      intro pool
      simp [Guarded]
  | cons first queue ih =>
      intro pool
      simp only [List.cons_append, Guarded, ih, and_assoc]
      rfl

/-- The invariant behind the check: the endpoint of a connected egress is or will be in the pool
and is there at every check, and nobody asks for the endpoint of one that is not connected yet. -/
structure Watched (c : Clients α) : Prop where
  unshared : c.Unshared
  registered : ∀ k x, (c.sessions k).connected = some x → x ∈ settle c.pool c.queue
  guarded : ∀ k x, (c.sessions k).connected = some x → Guarded x c.pool c.queue
  unasked : ∀ k x, c.sessions k = .established x → ∀ j, .check j x ∉ c.queue

theorem watched_start : (start : Clients α).Watched where
  unshared := by simp [Unshared, start, Phase.endpoint]
  registered := by simp [start, Phase.connected]
  guarded := by simp [start, Phase.connected]
  unasked := by simp [start]

/-- A session of the API passes only by a check of its own, on a pool without its endpoint. -/
theorem eq_check_of_passed {task : Task α} {rest : List (Task α)} {j : ℕ} {y : α}
    (hbefore : c.apis j ≠ .passed y) (hafter : (c.delivered task rest).apis j = .passed y) :
    task = .check j y ∧ y ∉ c.pool := by
  cases task with
  | insert x | remove x => exact absurd hafter hbefore
  | check i x =>
      change Function.update c.apis i (if x ∈ c.pool then .refused x else .passed x) j
        = .passed y at hafter
      by_cases hi : j = i
      · rw [hi, Function.update_self] at hafter
        split at hafter
        · cases hafter
        · rename_i hx
          obtain rfl := Api.passed.inj hafter
          exact ⟨by rw [hi], hx⟩
      · rw [Function.update_of_ne hi] at hafter
        exact absurd hafter hbefore

/-- Who passes is not the peer of an open connection. -/
theorem Watched.shut (h : c.Watched) : c.Shut := by
  intro d j y hexec hbefore hafter k hk
  rw [Clients.exec] at hexec
  split at hexec
  · cases hexec
  · rename_i task rest hqueue
    obtain rfl := Option.some.inj hexec
    obtain ⟨rfl, hpool⟩ := eq_check_of_passed hbefore hafter
    rcases Phase.established_or_connected hk with hestablished | hconnected
    · exact h.unasked k y hestablished j (by rw [hqueue]; exact List.mem_cons_self)
    · have hguarded := h.guarded k y hconnected
      rw [hqueue] at hguarded
      exact hpool (hguarded.1 j rfl)

/-- A move that posts nothing keeps watch. -/
theorem Watched.moved_nil (h : c.Watched) (hunshared : (c.moved k (q, [])).Unshared)
    (hconnected : ∀ x, q.connected = some x → (c.sessions k).connected = some x)
    (hunasked : ∀ x, q = .established x → ∀ j, .check j x ∉ c.queue) :
    (c.moved k (q, [])).Watched := by
  have hqueue : (c.moved k (q, [])).queue = c.queue := List.append_nil _
  have hall : ∀ i x, ((c.moved k (q, [])).sessions i).connected = some x →
      (c.sessions i).connected = some x := by
    intro i x hi
    by_cases hne : i = k
    · rw [hne, sessions_moved_self] at hi
      rw [hne]
      exact hconnected x hi
    · rwa [sessions_moved_of_ne hne] at hi
  refine ⟨hunshared, fun i x hi => ?_, fun i x hi => ?_, fun i x hi j => ?_⟩
  · rw [hqueue]
    exact h.registered i x (hall i x hi)
  · rw [hqueue]
    exact h.guarded i x (hall i x hi)
  · rw [hqueue]
    by_cases hne : i = k
    · rw [hne, sessions_moved_self] at hi
      exact hunasked x hi j
    · rw [sessions_moved_of_ne hne] at hi
      exact h.unasked i x hi j

/-- The insertion is posted before anybody asks for the endpoint. -/
theorem Watched.moved_insert (h : c.Watched) {x : α} (hp : c.sessions k = .established x)
    (hunshared : (c.moved k (.confirming x, [.insert x])).Unshared) :
    (c.moved k (.confirming x, [.insert x])).Watched := by
  refine ⟨hunshared, fun i y hi => ?_, fun i y hi => ?_, fun i y hi j => ?_⟩
  · rw [Clients.moved, settle_append, settle_singleton, Task.apply, Finset.mem_insert]
    by_cases hne : i = k
    · rw [hne, sessions_moved_self] at hi
      exact Or.inl (Option.some.inj hi).symm
    · rw [sessions_moved_of_ne hne] at hi
      exact Or.inr (h.registered i y hi)
  · rw [Clients.moved, guarded_append]
    refine ⟨?_, by simp⟩
    by_cases hne : i = k
    · rw [hne, sessions_moved_self] at hi
      obtain rfl := Option.some.inj hi
      exact guarded_of_forall_not_mem (h.unasked k x hp)
    · rw [sessions_moved_of_ne hne] at hi
      exact h.guarded i y hi
  · have hne : i ≠ k := by
      rintro rfl
      rw [sessions_moved_self] at hi
      cases hi
    rw [sessions_moved_of_ne hne] at hi
    simpa [Clients.moved] using h.unasked i y hi j

/-- The removal is for an endpoint that nobody else has. -/
theorem Watched.moved_remove (h : c.Watched) {x : α} (hp : c.sessions k = .bridging x)
    (hunshared : (c.moved k (.closing, [.remove x])).Unshared) :
    (c.moved k (.closing, [.remove x])).Watched := by
  have hk : (c.sessions k).endpoint = some x := by rw [hp]; rfl
  have hnot : ∀ i, (c.moved k (.closing, [.remove x])).sessions i ≠ .closing → i ≠ k := by
    rintro i hi rfl
    exact hi (sessions_moved_self ..)
  refine ⟨hunshared, fun i y hi => ?_, fun i y hi => ?_, fun i y hi j => ?_⟩
  · have hne : i ≠ k := hnot i (by rintro he; rw [he] at hi; cases hi)
    rw [sessions_moved_of_ne hne] at hi
    rw [Clients.moved, settle_append, settle_singleton, Task.apply, Finset.mem_erase]
    refine ⟨?_, h.registered i y hi⟩
    rintro rfl
    exact hne (h.unshared i k y (Phase.endpoint_of_connected hi) hk)
  · have hne : i ≠ k := hnot i (by rintro he; rw [he] at hi; cases hi)
    rw [sessions_moved_of_ne hne] at hi
    rw [Clients.moved, guarded_append]
    exact ⟨h.guarded i y hi, by simp⟩
  · have hne : i ≠ k := hnot i (by rintro he; rw [he] at hi; cases hi)
    rw [sessions_moved_of_ne hne] at hi
    simpa [Clients.moved] using h.unasked i y hi j

/-- A move keeps watch. -/
theorem Watched.moved (h : c.Watched) (hmove : (c.sessions k).move m = some (q, tasks))
    (hlate : c.CheckedLate (.session k m)) : (c.moved k (q, tasks)).Watched := by
  have hunshared := h.unshared.moved hmove (by rintro x rfl; exact hlate.1)
  obtain ⟨x, hp, rfl, rfl⟩ | ⟨x, hp, rfl, rfl⟩ | ⟨x, rfl, hp, rfl, rfl⟩ | ⟨rfl, rfl, -⟩
    | ⟨hqe, hqc, rfl⟩ := Phase.move_cases hmove
  · exact h.moved_insert hp hunshared
  · exact h.moved_remove hp hunshared
  · apply h.moved_nil hunshared
    · intro y hy
      cases hy
    · intro y hy
      obtain rfl := Phase.established.inj hy
      exact hlate.2
  · apply h.moved_nil hunshared
    · intro y hy
      cases hy
    · intro y hy
      cases hy
  · apply h.moved_nil hunshared
    · intro y hy
      rw [← hqc, hy]
    · rintro y rfl
      cases hqe.trans hqc.symm

/-- **One event keeps watch.** -/
theorem Watched.exec (h : c.Watched) {e : Event α} (hlate : c.CheckedLate e)
    (hexec : c.exec e = some d) : d.Watched := by
  cases e with
  | session k m =>
      obtain ⟨⟨q, tasks⟩, hmove, rfl⟩ := Option.map_eq_some_iff.mp hexec
      exact h.moved hmove hlate
  | accept j y =>
      rw [Clients.exec] at hexec
      split at hexec
      · obtain rfl := Option.some.inj hexec
        exact ⟨h.unshared, h.registered, h.guarded, h.unasked⟩
      · cases hexec
  | ask j =>
      rw [Clients.exec] at hexec
      split at hexec
      · rename_i y hy
        obtain rfl := Option.some.inj hexec
        refine ⟨h.unshared, fun k x hk => ?_, fun k x hk => ?_, fun k x hk i hi => ?_⟩
        · rw [settle_append]
          exact h.registered k x hk
        · rw [guarded_append]
          exact ⟨h.guarded k x hk, fun _ _ => h.registered k x hk⟩
        · rcases List.mem_append.mp hi with hold | hnew
          · exact h.unasked k x hk i hold
          · obtain ⟨rfl, rfl⟩ := Task.check.inj (List.mem_singleton.mp hnew)
            exact hlate x k hy hk
      · cases hexec
  | deliver =>
      rw [Clients.exec] at hexec
      split at hexec
      · cases hexec
      · rename_i task rest hqueue
        obtain rfl := Option.some.inj hexec
        obtain ⟨hunshared, hregistered, hguarded, hunasked⟩ := h
        rw [hqueue] at hregistered hguarded hunasked
        exact ⟨hunshared, hregistered, fun k x hk => (hguarded k x hk).2,
          fun k x hk j hj => hunasked k x hk j (List.mem_cons_of_mem _ hj)⟩

/-- **The API is shut for the proxy.**  In every state of every run in which no check is posted
or waiting for an endpoint whose connection is established and not yet registered, and no egress
gets a local endpoint that another one has: no session of the API passes the check while a
`Direct` egress has its remote endpoint. -/
theorem shut_of_careful (h : Reaches exec CheckedLate start c) : c.Shut :=
  (h.invariant Watched watched_start fun _ _ _ hinv hlate hexec => hinv.exec hlate hexec).shut

/-- A client asks after the egress was registered. -/
theorem shut_of_careful_example :
    ∃ c : Clients ℕ, Reaches exec CheckedLate start c ∧ c.sessions 0 = .confirming 5
      ∧ c.queue = [.check 0 5] ∧ c.Shut := by
  have hfree : ∀ c, (start : Clients ℕ).exec (.session 0 (.route true)) = some c →
      c.CheckedLate (.session 0 (.establish 5)) := by
    intro c hexec
    obtain rfl := Option.some.inj hexec
    refine ⟨?_, by simp [moved, start]⟩
    rintro (_ | k) hk <;> cases hk
  have hlate : ∀ c, run exec (start : Clients ℕ) [.session 0 (.route true),
      .session 0 (.establish 5), .session 0 .resume, .accept 0 5] = some c →
      c.CheckedLate (.ask 0) := by
    intro c hrun
    obtain rfl := Option.some.inj hrun
    rintro y (_ | k) - hk <;> cases hk
  have hrun : ∃ c : Clients ℕ, Reaches exec CheckedLate start c ∧ c.sessions 0 = .confirming 5
      ∧ c.queue = [.check 0 5] := by
    refine ⟨_, .step (.step (.step (.step (.step (.step .refl
      (e := .session 0 (.route true)) trivial rfl)
      (e := .session 0 (.establish 5)) (hfree _ rfl) rfl)
      (e := .session 0 .resume) trivial rfl)
      (e := .accept 0 5) trivial rfl)
      (e := .ask 0) (hlate _ rfl) rfl)
      (e := .deliver) trivial rfl, rfl, rfl⟩
  obtain ⟨c, hreach, hsession, hqueue⟩ := hrun
  exact ⟨c, hreach, hsession, hqueue, shut_of_careful hreach⟩

/-- The connection is established, and the server accepts it and posts its check before the
coroutine of the egress is resumed. -/
def earlySchedule : List (Event ℕ) :=
  [.session 0 (.route true), .session 0 (.establish 5), .accept 0 5, .ask 0]

/-- The check passes, and the egress is then connected. -/
theorem shut_counterexample :
    ∃ c d : Clients ℕ, Reachable exec start c ∧ ¬c.Shut
      ∧ run exec c [.deliver, .session 0 .resume] = some d ∧ d.apis 0 = .passed 5
      ∧ d.sessions 0 = .confirming 5 := by
  have hrun : ∃ c d e : Clients ℕ, run exec start earlySchedule = some c
      ∧ c.apis 0 = .asked 5 ∧ c.sessions 0 = .established 5
      ∧ c.exec .deliver = some e ∧ e.apis 0 = .passed 5
      ∧ run exec c [.deliver, .session 0 .resume] = some d ∧ d.apis 0 = .passed 5
      ∧ d.sessions 0 = .confirming 5 := by
    exact ⟨_, _, _, rfl, rfl, rfl, rfl, rfl, rfl, rfl, rfl⟩
  obtain ⟨c, d, e, hrun, hasked, hsession, hexec, hpassed, hlater, hapi, hconfirming⟩ := hrun
  refine ⟨c, d, Reaches.of_run .refl hrun, fun hshut => ?_, hlater, hapi, hconfirming⟩
  refine hshut e 0 5 hexec (by simp [hasked]) hpassed 0 ?_
  rw [hsession]
  rfl

end Clients

end Pichi
