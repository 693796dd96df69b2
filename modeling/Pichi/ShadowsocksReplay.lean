/-
# Replayed connections

The Shadowsocks sessions of a process.  They share one salt sentry: a session that has read the salt
of its client asks the sentry about it, on the strand of the sentry, and goes on with the answer.
Everything else of the sessions happens in any order, and the timer of the sentry may expire at any
time.

**Main result** (`refuses_replays`): in every run, a session whose salt was looked up before by
another session, with at most one rotation and no reset in between, is never routed, receives
nothing and gives nothing to an egress.  All other sessions go on as if there were no sentry.
-/
import Pichi.Sentry
import Pichi.ShadowsocksSession

namespace Pichi

namespace Shadowsocks

open Transfer (Source Sink)
open Session (Receiver Node NodeEvent receivedFrom givenTo bufferSize)
open Interleave

/-! ## The sessions of a process -/

/-- What ran on the strand of the sentry, and for which session. -/
inductive Visit : Type where
  | lookUp (i : ℕ) (salt : Bytes)
  | rotate
  | reset
  deriving DecidableEq

/-- The call of the sentry. -/
def Visit.call : Visit → SaltSentry.Call
  | .lookUp _ salt => .contains salt
  | .rotate => .rotate
  | .reset => .reset

/-- The sessions of a process, its sentry, what ran there so far, and what it has answered. -/
structure Process where
  sentry : SaltSentry := {}
  visits : List Visit := []
  answers : ℕ → Option Bool := fun _ => none
  nodes : ℕ → Node Shadowsocks

/-- What can happen. -/
inductive ProcessEvent : Type where
  /-- The sentry is asked about the salt of a session. -/
  | lookUp (i : ℕ)
  | rotate
  | reset
  | node (i : ℕ) (e : NodeEvent ((Shadowsocks → ReadEnv) ⊕ Fault × Shadowsocks))

/-- The salt that `read_salt` reads, if there is one. -/
def nextSalt (s : Shadowsocks) : Option Bytes := (s.input.read s.decryptor.salt.length).1

/-- `read_salt` goes on with the answer of the sentry; without a salt it does not ask. -/
def Process.heeds (w : Process) (i : ℕ) :
    NodeEvent ((Shadowsocks → ReadEnv) ⊕ Fault × Shadowsocks) → Bool
  | .read (.inl env) =>
    (nextSalt (w.nodes i).stream).isNone || w.answers i = some (env (w.nodes i).stream).replayed
  | .read (.inr _) => true
  | .receive _ => true
  | .other _ => true

section Exec

variable {Context Socket : Type} (c : Crypto) (hexEncode : Bytes → Bytes)
  (st : ℕ → Session.Setting Context Socket)

/-- What an event does. -/
def Process.exec (w : Process) : ProcessEvent → Option Process
  | .lookUp i => do
    let salt ← nextSalt (w.nodes i).stream
    if (w.answers i).isNone && (w.nodes i).session.isReading then
      let (answer, sentry) := w.sentry.contains hexEncode salt
      some { w with
        sentry := sentry
        visits := w.visits ++ [.lookUp i salt]
        answers := Function.update w.answers i (some answer) }
    else none
  | .rotate => some { w with sentry := w.sentry.rotate, visits := w.visits ++ [.rotate] }
  | .reset => some { w with sentry := w.sentry.reset, visits := w.visits ++ [.reset] }
  | .node i e =>
    if w.heeds i e then do
      let n ← (w.nodes i).exec (st i) (receiver c (st i).platform).breakable e
      some { w with nodes := Function.update w.nodes i n }
    else none

/-- The sessions start in front of their streams. -/
def Process.start (streams : ℕ → Shadowsocks) : Process where
  nodes := fun i => Node.start (st i) (streams i)

end Exec

/-- Before the last lookup for the session, its salt was looked up for another one, with at most one
rotation and no reset in between. -/
def Repeats (visits : List Visit) (i : ℕ) : Prop :=
  ∃ pre j salt mid post, visits = pre ++ .lookUp j salt :: (mid ++ .lookUp i salt :: post)
    ∧ .reset ∉ mid ∧ mid.count .rotate ≤ 1

/-! ## What a lookup answers -/

section Sentry

variable {hexEncode : Bytes → Bytes} {salt : Bytes} {visits : List Visit}

/-- A lookup answers `true` if and only if the salt was looked up before, for any session. -/
theorem contains_after_iff (hinj : Function.Injective hexEncode) :
    ((SaltSentry.after hexEncode (visits.map Visit.call)).contains hexEncode salt).1 = true
      ↔ ∃ pre j mid, visits = pre ++ .lookUp j salt :: mid ∧ .reset ∉ mid
        ∧ mid.count .rotate ≤ 1 := by
  obtain ⟨hactive, hexpiring⟩ := SaltSentry.mem_after_iff hinj salt (visits.map Visit.call)
  simp only [SaltSentry.contains, Bool.or_eq_true, Bool.not_eq_true', decide_eq_true_eq,
    decide_eq_false_iff_not, not_not]
  rw [hactive, hexpiring, ← SaltSentry.seen_iff]
  have hreset : ∀ mid : List Visit, .reset ∈ mid.map Visit.call ↔ .reset ∈ mid := by
    intro mid
    rw [List.mem_map]
    refine ⟨?_, fun h => ⟨.reset, h, rfl⟩⟩
    rintro ⟨v, hv, hcall⟩
    cases v with
    | reset => exact hv
    | lookUp j w => cases hcall
    | rotate => cases hcall
  have hcount : ∀ mid : List Visit, (mid.map Visit.call).count .rotate = mid.count .rotate := by
    intro mid
    induction mid with
    | nil => rfl
    | cons v mid ih =>
        rw [List.map_cons, List.count_cons, List.count_cons, ih]
        cases v <;> rfl
  constructor
  · rintro ⟨pre, post, hmap, hnone, hle⟩
    obtain ⟨pre', rest, rfl, rfl, hrest⟩ := List.map_eq_append_iff.mp hmap
    obtain ⟨v, mid, rfl, hv, rfl⟩ := List.map_eq_cons_iff.mp hrest
    rw [hreset] at hnone
    rw [hcount] at hle
    cases v with
    | lookUp j w =>
        cases hv
        exact ⟨pre', j, mid, rfl, hnone, hle⟩
    | rotate => cases hv
    | reset => cases hv
  · rintro ⟨pre, j, mid, rfl, hnone, hle⟩
    refine ⟨pre.map Visit.call, mid.map Visit.call, by simp [Visit.call], ?_, ?_⟩
    · rwa [hreset]
    · rwa [hcount]

end Sentry

/-! ## Runs -/

section Runs

variable {Context Socket : Type} {c : Crypto} {hexEncode : Bytes → Bytes}
  {st : ℕ → Session.Setting Context Socket} {w w' : Process} {streams : ℕ → Shadowsocks}

/-- The session asks for its remote endpoint. -/
theorem isReading_iff {s : Session.State} : s.isReading = true ↔ s.point = .reading := by
  unfold Session.State.isReading
  cases s.point <;> simp

/-- What an event may do: a lookup, something else on the strand of the sentry, or something that
happens to a session. -/
theorem Process.exec_cases {e : ProcessEvent} (h : w.exec c hexEncode st e = some w') :
    (∃ i salt, nextSalt (w.nodes i).stream = some salt ∧ w.answers i = none
        ∧ (w.nodes i).session.point = .reading
        ∧ w' = { w with
          sentry := (w.sentry.contains hexEncode salt).2
          visits := w.visits ++ [.lookUp i salt]
          answers := Function.update w.answers i (some (w.sentry.contains hexEncode salt).1) })
      ∨ (∃ v : Visit, (∀ i salt, v ≠ .lookUp i salt)
        ∧ w' = { w with sentry := w.sentry.step hexEncode v.call, visits := w.visits ++ [v] })
      ∨ ∃ i e n, w.heeds i e = true
        ∧ (w.nodes i).exec (st i) (receiver c (st i).platform).breakable e = some n
        ∧ w' = { w with nodes := Function.update w.nodes i n } := by
  cases e with
  | lookUp i =>
      obtain ⟨salt, hsalt, h⟩ := Option.bind_eq_some_iff.mp h
      split at h
      · rename_i hguard
        obtain ⟨hnone, hreading⟩ := (Bool.and_eq_true _ _).mp hguard
        cases h
        exact Or.inl ⟨i, salt, hsalt, Option.isNone_iff_eq_none.mp hnone,
          isReading_iff.mp hreading, rfl⟩
      · cases h
  | rotate =>
      cases h
      exact Or.inr (Or.inl ⟨.rotate, by simp, rfl⟩)
  | reset =>
      cases h
      exact Or.inr (Or.inl ⟨.reset, by simp, rfl⟩)
  | node i e =>
      simp only [Process.exec] at h
      split at h
      · rename_i hheeds
        obtain ⟨n, hn, h⟩ := Option.bind_eq_some_iff.mp h
        cases h
        exact Or.inr (Or.inr ⟨i, e, n, hheeds, hn, rfl⟩)
      · cases h

/-- What holds in every state of a process. -/
structure Kept (c : Crypto) (hexEncode : Bytes → Bytes) (st : ℕ → Session.Setting Context Socket)
    (streams : ℕ → Shadowsocks) (w : Process) : Prop where
  /-- The sentry is what its calls have made of it. -/
  sentry : w.sentry = SaltSentry.after hexEncode (w.visits.map Visit.call)
  /-- The runs of the sessions are runs of sessions. -/
  nodes : ∀ i, Reachable (Node.exec (st i) (receiver c (st i).platform).breakable)
    (Node.start (st i) (streams i)) (w.nodes i)
  /-- An answer was asked for. -/
  answered : ∀ i b, w.answers i = some b → ∃ salt, .lookUp i salt ∈ w.visits
  /-- A lookup is about the salt of the session, and its answer is there. -/
  asked : ∀ pre i salt post, w.visits = pre ++ .lookUp i salt :: post →
    nextSalt (streams i) = some salt ∧ w.answers i
      = some ((SaltSentry.after hexEncode (pre.map Visit.call)).contains hexEncode salt).1
  /-- Who is told that his salt was there is refused. -/
  refused : ∀ i, w.answers i = some true → (w.nodes i).Refused (st i) (streams i)

theorem kept_start : Kept c hexEncode st streams (Process.start st streams) where
  sentry := rfl
  nodes := fun i => .refl
  answered := by
    intro i b h
    cases h
  asked := by
    intro pre i salt post h
    simp [Process.start] at h
  refused := by
    intro i h
    cases h

/-- A session that has not got anything yet is in front of its stream. -/
theorem Kept.eq_start (h : Kept c hexEncode st streams w) {i : ℕ}
    (hpoint : (w.nodes i).session.point = .reading) :
    w.nodes i = Node.start (st i) (streams i) := by
  rcases Node.chained (h.nodes i) with hstart | ⟨hlost, -⟩ | ⟨hnot, -⟩
  · exact hstart
  · simp only [Session.State.Lost, hpoint] at hlost
  · exact absurd hpoint hnot

/-- A call on the strand of the sentry is recorded there. -/
theorem after_concat (visits : List Visit) (v : Visit) :
    SaltSentry.after hexEncode ((visits ++ [v]).map Visit.call)
      = (SaltSentry.after hexEncode (visits.map Visit.call)).step hexEncode v.call := by
  simp [SaltSentry.after]

/-- A lookup among those recorded after one more is the new one or an older one. -/
theorem lookUp_of_concat {visits pre post : List Visit} {v : Visit} {i : ℕ} {salt : Bytes}
    (h : visits ++ [v] = pre ++ .lookUp i salt :: post) :
    (pre = visits ∧ v = .lookUp i salt) ∨ ∃ post', visits = pre ++ .lookUp i salt :: post' := by
  rcases List.eq_nil_or_concat post with rfl | ⟨post', last, rfl⟩
  · obtain ⟨hpre, hv⟩ := List.append_inj' h rfl
    exact Or.inl ⟨hpre.symm, (List.cons.inj hv).1⟩
  · refine Or.inr ⟨post', ?_⟩
    have h' : visits ++ [v] = (pre ++ .lookUp i salt :: post') ++ [last] := by
      rw [h, List.concat_eq_append, List.append_assoc, List.cons_append]
    exact (List.append_inj' h' rfl).1

/-- A lookup keeps it. -/
theorem Kept.lookUp (h : Kept c hexEncode st streams w) {k : ℕ} {salt : Bytes}
    (hsalt : nextSalt (w.nodes k).stream = some salt) (hnone : w.answers k = none)
    (hpoint : (w.nodes k).session.point = .reading) :
    Kept c hexEncode st streams { w with
      sentry := (w.sentry.contains hexEncode salt).2
      visits := w.visits ++ [.lookUp k salt]
      answers := Function.update w.answers k (some (w.sentry.contains hexEncode salt).1) } where
  sentry := by
    rw [after_concat, ← h.sentry]
    rfl
  nodes := h.nodes
  answered := by
    intro i b hb
    by_cases hi : i = k
    · exact ⟨salt, by simp [hi]⟩
    · simp only [Function.update_of_ne hi] at hb
      obtain ⟨salt', hmem⟩ := h.answered i b hb
      exact ⟨salt', List.mem_append_left _ hmem⟩
  asked := by
    intro pre i salt' post hvisits
    rcases lookUp_of_concat hvisits with ⟨rfl, hv⟩ | ⟨post', hvisits⟩
    · cases hv
      rw [h.eq_start hpoint] at hsalt
      exact ⟨hsalt, by simp only [Function.update_self, h.sentry]⟩
    · obtain ⟨hsalt', hanswer⟩ := h.asked pre i salt' post' hvisits
      have hi : i ≠ k := by
        rintro rfl
        rw [hnone] at hanswer
        cases hanswer
      exact ⟨hsalt', by simp only [Function.update_of_ne hi, hanswer]⟩
  refused := by
    intro i hi
    by_cases hk : i = k
    · subst hk
      exact Or.inl (h.eq_start hpoint)
    · simp only [Function.update_of_ne hk] at hi
      exact h.refused i hi

/-- What else happens on the strand of the sentry keeps it. -/
theorem Kept.other (h : Kept c hexEncode st streams w) {v : Visit}
    (hv : ∀ i salt, v ≠ .lookUp i salt) :
    Kept c hexEncode st streams
      { w with sentry := w.sentry.step hexEncode v.call, visits := w.visits ++ [v] } where
  sentry := by rw [after_concat, ← h.sentry]
  nodes := h.nodes
  answered := by
    intro i b hb
    obtain ⟨salt, hmem⟩ := h.answered i b hb
    exact ⟨salt, List.mem_append_left _ hmem⟩
  asked := by
    intro pre i salt post hvisits
    rcases lookUp_of_concat hvisits with ⟨-, hlookUp⟩ | ⟨post', hvisits⟩
    · exact absurd hlookUp (hv i salt)
    · exact h.asked pre i salt post' hvisits
  refused := h.refused

/-- A session that was told that its salt was there goes on with this answer. -/
theorem Kept.replayed_of_heeds (h : Kept c hexEncode st streams w) {i : ℕ}
    {env : Shadowsocks → ReadEnv} (hanswer : w.answers i = some true)
    (hstart : w.nodes i = Node.start (st i) (streams i))
    (hheeds : w.heeds i (.read (.inl env)) = true) :
    ∃ salt, nextSalt (streams i) = some salt ∧ (env (streams i)).replayed = true := by
  obtain ⟨salt, hmem⟩ := h.answered i true hanswer
  obtain ⟨pre, post, hvisits⟩ := List.append_of_mem hmem
  obtain ⟨hsalt, -⟩ := h.asked pre i salt post hvisits
  refine ⟨salt, hsalt, ?_⟩
  simp only [Process.heeds, hstart, Node.start, hsalt, Option.isNone_some, Bool.false_or,
    decide_eq_true_eq] at hheeds
  exact (Option.some.inj (hanswer.symm.trans hheeds)).symm

variable {m : ℕ → CryptoMethod} {pw own : ℕ → Bytes} {src : ℕ → Source UInt8}
  {output : ℕ → Sink UInt8} {socket : ℕ → Socket}

/-- `read_remote` fails for a salt that was there before. -/
theorem readRemote_of_replayed {p : Platform} {env : Shadowsocks → ReadEnv} {salt : Bytes}
    {s : Shadowsocks} (hsentry : s.sentry = true) (hsalt : nextSalt s = some salt)
    (henv : (env s).replayed = true) : (readRemote c p env s).1 = .error badProto := by
  have hread : s.input.read s.decryptor.salt.length
      = (some salt, (s.input.read s.decryptor.salt.length).2) := Prod.ext hsalt rfl
  have hfail : ∃ s', readSalt c (env s) s = (.error badProto, s') := by
    unfold readSalt
    rw [hread]
    simp only [hsentry, henv, Bool.and_self, if_true]
    exact ⟨_, rfl⟩
  obtain ⟨s', hs'⟩ := hfail
  rw [readRemote, hs']

/-- What happens to a session keeps it. -/
theorem Kept.node
    (hingress : ∀ i, createIngress (st i).platform (st i).library (st i).sha224 (st i).vo
      (st i).socket = .ok (.shadowsocks (m i) (pw i) (socket i)))
    (h : Kept c hexEncode st (fun i => make c (m i) (pw i) (own i) true (src i) (output i)) w)
    {k : ℕ} {e : NodeEvent ((Shadowsocks → ReadEnv) ⊕ Fault × Shadowsocks)} {n : Node Shadowsocks}
    (hheeds : w.heeds k e = true)
    (hn : (w.nodes k).exec (st k) (receiver c (st k).platform).breakable e = some n) :
    Kept c hexEncode st (fun i => make c (m i) (pw i) (own i) true (src i) (output i))
      { w with nodes := Function.update w.nodes k n } where
  sentry := h.sentry
  nodes := by
    intro i
    by_cases hi : i = k
    · subst hi
      simp only [Function.update_self]
      exact .step (h.nodes i) trivial hn
    · simp only [Function.update_of_ne hi]
      exact h.nodes i
  answered := h.answered
  asked := h.asked
  refused := by
    intro i hi
    by_cases hk : i = k
    · subst hk
      simp only [Function.update_self]
      refine Node.refused_step (Session.orderly_of_reachable (Node.reachable (h.nodes i)))
        (h.refused i hi) hn ?_
      rintro hstart env rfl
      rw [inlet_of_shadowsocks (hingress i)]
      rcases env with env | ⟨f, s⟩
      · -- the answer was `true`, so that `read_salt` fails
        obtain ⟨salt, hsalt, hreplayed⟩ := h.replayed_of_heeds hi hstart hheeds
        refine ⟨complete badProto, ?_⟩
        show ((readRemote c (st i).platform env _).1).mapError complete = _
        rw [readRemote_of_replayed rfl hsalt hreplayed]
        rfl
      · exact ⟨f, rfl⟩
    · simp only [Function.update_of_ne hk]
      exact h.refused i hi

theorem kept_of_reachable
    (hingress : ∀ i, createIngress (st i).platform (st i).library (st i).sha224 (st i).vo
      (st i).socket = .ok (.shadowsocks (m i) (pw i) (socket i)))
    (h : Reachable (Process.exec c hexEncode st) (Process.start st fun i =>
      make c (m i) (pw i) (own i) true (src i) (output i)) w) :
    Kept c hexEncode st (fun i => make c (m i) (pw i) (own i) true (src i) (output i)) w := by
  refine h.invariant _ kept_start ?_
  intro t e u ht _ hexec
  rcases Process.exec_cases hexec with
    ⟨i, salt, hsalt, hnone, hpoint, rfl⟩ | ⟨v, hv, rfl⟩ | ⟨i, e, n, hheeds, hn, rfl⟩
  · exact ht.lookUp hsalt hnone hpoint
  · exact ht.other hv
  · exact ht.node hingress hheeds hn

/-- **Replayed connections are refused.**  However the events of the sessions of a process and of
its sentry are interleaved, and whatever arrives on the sockets: the salts that are looked up are
the first bytes of the connections; a session whose salt was looked up before, within the time of
the sentry, is never routed, receives nothing and gives nothing to its egress; and no other session
is told that its salt was there before. -/
theorem refuses_replays (hinj : Function.Injective hexEncode)
    (hingress : ∀ i, createIngress (st i).platform (st i).library (st i).sha224 (st i).vo
      (st i).socket = .ok (.shadowsocks (m i) (pw i) (socket i)))
    (h : Reachable (Process.exec c hexEncode st) (Process.start st fun i =>
      make c (m i) (pw i) (own i) true (src i) (output i)) w) :
    (∀ i salt, .lookUp i salt ∈ w.visits → salt = (src i).all.take (m i).keySize)
      ∧ (∀ i, Repeats w.visits i → (∀ peer, (w.nodes i).session.point ≠ .routing peer)
        ∧ receivedFrom .ingress (w.nodes i).session.log = []
        ∧ givenTo .egress (w.nodes i).session.log = [])
      ∧ ∀ i, ¬Repeats w.visits i → w.answers i ≠ some true := by
  have hkept := kept_of_reachable hingress h
  refine ⟨fun i salt hmem => ?_, fun i hrepeats => ?_, fun i hfirst hanswer => ?_⟩
  · obtain ⟨pre, post, hvisits⟩ := List.append_of_mem hmem
    obtain ⟨hsalt, -⟩ := hkept.asked pre i salt post hvisits
    have hread : (src i).read (m i).keySize = (some salt, ((src i).read (m i).keySize).2) := by
      refine Prod.ext ?_ rfl
      simpa [nextSalt, make, Decryptor.make] using hsalt
    rw [Source.eq_append_of_read hread, ← Source.length_of_read hread, List.take_left]
  · obtain ⟨pre, j, salt, mid, post, hvisits, hreset, hcount⟩ := hrepeats
    obtain ⟨-, hanswer⟩ := hkept.asked (pre ++ .lookUp j salt :: mid) i salt post
      (by rw [hvisits, List.append_assoc, List.cons_append])
    rw [(contains_after_iff hinj).mpr ⟨pre, j, mid, rfl, hreset, hcount⟩] at hanswer
    exact (hkept.refused i hanswer).nothing (Node.reachable (hkept.nodes i))
  · obtain ⟨salt, hmem⟩ := hkept.answered i true hanswer
    obtain ⟨before, post, hvisits⟩ := List.append_of_mem hmem
    obtain ⟨-, hanswer'⟩ := hkept.asked before i salt post hvisits
    rw [hanswer] at hanswer'
    obtain ⟨pre, j, mid, hbefore, hreset, hcount⟩ :=
      (contains_after_iff hinj).mp (Option.some.inj hanswer').symm
    refine hfirst ⟨pre, j, salt, mid, post, ?_, hreset, hcount⟩
    rw [hvisits, hbefore, List.append_assoc, List.cons_append]

end Runs

/-! ### A connection and its copy -/

namespace Example

/-- All sessions are in front of the same bytes. -/
def process : Process := Process.start (fun _ => server) fun _ => stream

/-- The events of the process. -/
def exec : Process → ProcessEvent → Option Process :=
  Process.exec Reference.crypto Reference.hexEncode fun _ => server

theorem run_lookUps :
    ∃ w, run exec process [.lookUp 0, .lookUp 1] = some w
      ∧ w.visits = [.lookUp 0 salt, .lookUp 1 salt] ∧ w.answers 0 = some false
      ∧ w.answers 1 = some true ∧ w.nodes = fun _ => Node.start server stream :=
  ⟨_, rfl, rfl, by decide +kernel, by decide +kernel, rfl⟩

end Example

/-- The first session is routed; the one that comes with the same salt is rejected. -/
theorem refuses_replays_example :
    ∃ w, Reachable Example.exec Example.process w ∧ Repeats w.visits 1
      ∧ (w.nodes 0).session.point = .routing ⟨.ipv4, lit "127.0.0.1", 80⟩
      ∧ (w.nodes 1).session.point = .rejecting
      ∧ receivedFrom .ingress (w.nodes 1).session.log = []
      ∧ givenTo .egress (w.nodes 1).session.log = [] := by
  obtain ⟨w, hrun, hvisits, hfalse, htrue, hnodes⟩ := Example.run_lookUps
  obtain ⟨s, hread, -⟩ := Example.read_stream
  have hfirst : ∃ w₁, Example.exec w (.node 0 (.read (.inl fun _ => {}))) = some w₁
      ∧ w₁.visits = w.visits ∧ w₁.answers = w.answers
      ∧ (w₁.nodes 0).session.point = .routing ⟨.ipv4, lit "127.0.0.1", 80⟩
      ∧ w₁.nodes 1 = Node.start Example.server Example.stream := by
    have hheeds : w.heeds 0 (.read (.inl fun _ => {})) = true := by
      simp [Process.heeds, hfalse]
    simp only [Example.exec, Process.exec, hheeds, if_true, hnodes, Node.exec, Node.start, hread]
    exact ⟨_, rfl, rfl, rfl, rfl, rfl⟩
  obtain ⟨w₁, hexec₁, hvisits₁, hanswers₁, hrouting, hnode₁⟩ := hfirst
  have hsecond : ∃ w₂, Example.exec w₁ (.node 1 (.read (.inl fun _ => { replayed := true })))
        = some w₂ ∧ w₂.visits = w₁.visits ∧ w₂.nodes 0 = w₁.nodes 0
      ∧ (w₂.nodes 1).session.point = .rejecting := by
    have hheeds : w₁.heeds 1 (.read (.inl fun _ => { replayed := true })) = true := by
      simp [Process.heeds, hanswers₁, htrue]
    simp only [Example.exec, Process.exec, hheeds, if_true, hnode₁]
    exact ⟨_, rfl, rfl, rfl, rfl⟩
  obtain ⟨w₂, hexec₂, hvisits₂, hnode₂, hrejecting⟩ := hsecond
  have hreach : Reachable Example.exec Example.process w₂ :=
    .step (.step (Reaches.of_run .refl hrun) trivial hexec₁) trivial hexec₂
  have hrepeats : Repeats w₂.visits 1 :=
    ⟨[], 0, Example.salt, [], [], by rw [hvisits₂, hvisits₁, hvisits]; rfl, by simp, by simp⟩
  refine ⟨w₂, hreach, hrepeats, by rw [hnode₂, hrouting], hrejecting, ?_⟩
  exact ((refuses_replays Reference.hexEncode_injective
    (fun _ => Example.createIngress_server) hreach).2.1 1 hrepeats).2

end Shadowsocks

end Pichi
