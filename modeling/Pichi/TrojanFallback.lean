/-
# The fallback of the Trojan ingress

If a client does not send a request, `read_remote` gives up, everything that was taken from
the cache is put back, and the connection goes to the fallback endpoint, which is to see the
bytes of the client from the first one on.

The first two reads go to their places in the cache, so that everything can be put back.

* `Transparent`: the fallback sees the bytes of the client.
* `Settled`: there is no third read to make, because there are two pieces at most or the first
  two decide what becomes of the request.
* `parseRequest_of_readFrom`: after the first read, the parser is a program that reads.
* `intact_of_few`, `intact_of_decided`: nothing is lost as long as there is no third read.
-/
import Pichi.TrojanRequest

namespace Pichi

open Transfer

namespace Trojan

namespace Ingress

/-! ## Giving up -/

/-- The `try` block of `read_remote`. -/
def attempt (p : Platform) (accepted : Result Unit) : Coroutine Endpoint := do
  fun s => (accepted, s)
  readRequest p

/-- `read_remote` gives up, and returns the fallback endpoint. -/
def FallsBack (p : Platform) (accepted : Result Unit) (s s' : Ingress) : Prop :=
  (∃ x, (attempt p accepted s).1 = .error (.thrown x))
    ∧ readRemote p accepted s = (.ok s.remote, s')

/-- If `read_remote` gives up, then calls of `recv` with any sizes hand out the bytes of the
client from the first one on, and all of them when there are as many calls with a buffer as
bytes. -/
def Transparent (p : Platform) (accepted : Result Unit) (s : Ingress) : Prop :=
  ∀ s', FallsBack p accepted s s' → ∀ sizes : List ℕ,
    received (recvRun sizes s').1 <+: s.underlying.all
      ∧ (s.underlying.all.length ≤ (sizes.filter (0 < ·)).length →
        received (recvRun sizes s').1 = s.underlying.all)

/-- The end of a request. -/
def closing (e : Endpoint) : Reader UInt8 Fault Endpoint :=
  .read 2 fun w => if w = crlf then .ret e else .fail badProto

/-- What follows the hash and its end of line: the command, the endpoint, the end of line. -/
def command (p : Platform) : Reader UInt8 Fault Endpoint :=
  .read 1 fun w => if w = [1] then (parse_endpoint p).bind closing else .fail badProto

/-- The hash and the end of line behind it are those of a request. -/
def Greets (passwords : List Bytes) (piece : Bytes) : Prop :=
  58 ≤ piece.length ∧ piece.take 56 ∈ passwords ∧ (piece.drop 56).take 2 = crlf

/-- The first two pieces decide what becomes of the request, or there is no third one. -/
def Settled (p : Platform) (passwords : List Bytes) : List Bytes → Prop
  | piece :: second :: _ :: _ =>
    Greets passwords piece → (command p).starves (piece.drop 58 ++ second) = false
  | _ => True

/-! ## What lasts -/

/-- A property that every read and every mark keeps. -/
structure Lasting (Inv : Ingress → Prop) : Prop where
  read : KeptByReads Inv
  mark : ∀ {s n}, Inv s → n ≤ s.cache.size → Inv (s.mark n)

section Lasting

variable {Inv : Ingress → Prop} {s s' : Ingress} {n : ℕ}

theorem taken_readFrom (n : ℕ) (s : Ingress) :
    (readFrom n s).2.cache.taken = s.cache.taken := by
  have hkept : KeptByReads fun t => t.cache.taken = s.cache.taken :=
    fun _ _ _ ht _ _ => ht
  exact hkept.readFrom n rfl

/-- A demand after something was taken: the bytes are marked as taken. -/
theorem demand_of_ok (hread : readFrom n s = (.ok (), s')) (hpos : 0 < s.cache.taken) :
    demand n s
      = (.ok (load s'.cache.memory (s'.cache.first + s'.cache.taken) n), s'.mark n) := by
  have hsize := size_of_readFrom hread
  have htaken : s'.cache.taken = s.cache.taken := by
    rw [← taken_readFrom n s, hread]
  rw [demand, bind_of_ok hread]
  simp only [Cache.takeInto]
  rw [Nat.min_eq_right hsize, if_neg (by omega)]
  rfl

theorem demand_of_error {f : Fault} (hread : readFrom n s = (.error f, s')) :
    demand n s = (.error f, s') := by
  rw [demand, bind_of_error hread]

theorem taken_demand (n : ℕ) (hpos : 0 < s.cache.taken) :
    0 < (demand n s).2.cache.taken := by
  have htaken := taken_readFrom n s
  rcases hread : readFrom n s with ⟨f | ⟨⟩, s'⟩
  · rw [hread] at htaken
    rw [demand_of_error hread]
    exact htaken.symm ▸ hpos
  · rw [hread] at htaken
    rw [demand_of_ok hread hpos, taken_mark]
    simp only at htaken
    omega

theorem Lasting.demand (h : Lasting Inv) (n : ℕ) (hs : Inv s) (hpos : 0 < s.cache.taken) :
    Inv (Ingress.demand n s).2 := by
  have hnext := h.read.readFrom n hs
  rcases hread : Ingress.readFrom n s with ⟨f | ⟨⟩, s'⟩
  · rw [hread] at hnext
    rw [demand_of_error hread]
    exact hnext
  · rw [hread] at hnext
    rw [demand_of_ok hread hpos]
    exact h.mark hnext (size_of_readFrom hread)

/-- A program that reads keeps what lasts. -/
theorem Lasting.run {α : Type} (h : Lasting Inv) (x : Reader UInt8 Fault α) (hs : Inv s)
    (hpos : 0 < s.cache.taken) :
    Inv (x.run (fun s n => Ingress.demand n s) s).2 :=
  (Reader.run_invariant (fun s => Inv s ∧ 0 < s.cache.taken)
    (fun _ n hs => ⟨h.demand n hs.1 hs.2, taken_demand n hs.2⟩) x s ⟨hs, hpos⟩).1

end Lasting

/-! ## The request as a reader -/

section Request

variable {p : Platform} {s s₁ : Ingress}

/-- A check after something was taken, and what follows it. -/
theorem expect_bind_eq {α : Type} (w : Bytes) (hpos : 0 < s.cache.taken)
    {f : Unit → Coroutine α} {k : Reader UInt8 Fault α}
    (hk : ∀ t, 0 < t.cache.taken → f () t = k.run (fun s n => demand n s) t) :
    (expect w >>= f) s = (Reader.read w.length fun got => if got = w then k else .fail badProto).run
      (fun s n => demand n s) s := by
  rw [Reader.run]
  rcases hread : readFrom w.length s with ⟨e | ⟨⟩, s'⟩
  · have hexpect : expect w s = (.error e, s') := by
      rw [expect, bind_of_error hread]
    rw [bind_of_error hexpect, demand_of_error hread]
  · have hexpect : expect w s = ((Checked.assertTrue (load s'.cache.memory
        (s'.cache.first + s'.cache.taken) w.length = w) .badProto "").lift, s'.mark w.length) := by
      rw [expect, bind_of_ok hread, bind_of_ok (take_of_le (size_of_readFrom hread))]
      rfl
    rw [demand_of_ok hread hpos]
    simp only
    split
    · rename_i heq
      have hpos' : 0 < (s'.mark w.length).cache.taken := by
        have htaken := taken_readFrom w.length s
        rw [hread] at htaken
        rw [taken_mark, show s'.cache.taken = s.cache.taken from htaken]
        omega
      rw [decide_eq_true heq] at hexpect
      rw [bind_of_ok hexpect, hk _ hpos']
    · rename_i hne
      rw [decide_eq_false hne] at hexpect
      rw [bind_of_error hexpect]
      rfl

/-- A program that reads, and what follows it. -/
theorem run_bind_eq {α β : Type} (x : Reader UInt8 Fault α) {g : α → Coroutine β}
    {k : α → Reader UInt8 Fault β}
    (hk : ∀ a t, 0 < t.cache.taken → g a t = (k a).run (fun s n => demand n s) t) :
    ∀ {s : Ingress}, 0 < s.cache.taken →
      ((x.run fun s n => demand n s : Coroutine α) >>= g) s
        = (x.bind k).run (fun s n => demand n s) s := by
  induction x with
  | ret a =>
      intro s hpos
      exact (bind_of_ok rfl).trans (hk a s hpos)
  | fail e =>
      intro s hpos
      exact bind_of_error rfl
  | read n k' ih =>
      intro s hpos
      have hpos' := taken_demand n hpos
      rcases hread : demand n s with ⟨e | w, s'⟩
      · have hrun : (Reader.read n k').run (fun s n => demand n s) s = (.error e, s') := by
          rw [Reader.run, hread]
        rw [bind_of_error hrun, Reader.bind, Reader.run, hread]
      · rw [hread] at hpos'
        have hrun : (Reader.read n k').run (fun s n => demand n s) s
            = (k' w).run (fun s n => demand n s) s' := Reader.run_read_of_ok hread
        rw [bind_of_eq hrun, ih w hpos', Reader.bind, Reader.run_read_of_ok hread]

/-- What follows the hash and its end of line. -/
theorem command_eq (hpos : 0 < s.cache.taken) :
    (do
      expect [1]
      let remote ← (parse_endpoint p).run fun s n => demand n s
      expect crlf
      return remote : Coroutine Endpoint) s = (command p).run (fun s n => demand n s) s := by
  apply expect_bind_eq [1] hpos
  intro t ht
  refine run_bind_eq (parse_endpoint p) (fun e t ht => ?_) ht
  exact expect_bind_eq crlf ht fun _ _ => rfl

theorem take_load {memory : Memory} {offset n k : ℕ} (h : k ≤ n) :
    (load memory offset n).take k = load memory offset k := by
  obtain ⟨d, rfl⟩ := Nat.exists_eq_add_of_le h
  rw [load_add, List.take_left' (length_load _ _ _)]

theorem drop_load {memory : Memory} {offset n k : ℕ} (h : k ≤ n) :
    (load memory offset n).drop k = load memory (offset + k) (n - k) := by
  obtain ⟨d, rfl⟩ := Nat.exists_eq_add_of_le h
  rw [load_add, List.drop_left' (length_load _ _ _), Nat.add_sub_cancel_left]

theorem assertTrue_of_false {b : Bool} (e : PichiError) (h : b = false) :
    assertTrue b e s = (.error (.thrown (.systemError ⟨.pichi e, ""⟩)), s) := by
  rw [h]
  rfl

/-- The checks of the hash and of its end of line. -/
theorem readHeader_of_readFrom (hread : readFrom 1 s = (.ok (), s₁))
    (hfirst : s₁.cache.first = 0) (htaken : s₁.cache.taken = 0) :
    (Greets s₁.passwords (load s₁.cache.memory 0 s₁.cache.last) →
        readHeader s = expect [1] (s₁.mark 58))
      ∧ (¬Greets s₁.passwords (load s₁.cache.memory 0 s₁.cache.last) →
        ∃ x n, n ≤ s₁.cache.size ∧ readHeader s = (.error (.thrown x), s₁.mark n)) := by
  have hsize : s₁.cache.size = s₁.cache.last := by
    rw [Cache.size, hfirst, htaken, Nat.sub_zero, Nat.sub_zero]
  rw [Greets, length_load, readHeader, bind_of_ok hread, bind_get]
  by_cases hlong : 58 ≤ s₁.cache.last
  · rw [take_load (by omega), drop_load (by omega), take_load (by omega),
      bind_of_ok (assertTrue_of_true _ (decide_eq_true (by rw [hsize]; exact hlong)))]
    have htake : take 56 s₁ = (.ok (load s₁.cache.memory 0 56), s₁.mark 56) := by
      rw [take_of_le (by omega), hfirst, htaken]
    have htake' : take 2 (s₁.mark 56)
        = (.ok (load s₁.cache.memory (0 + 56) 2), (s₁.mark 56).mark 2) := by
      rw [take_of_le (by rw [size_mark]; omega), taken_mark, htaken]
      show (_, _) = (Except.ok (load s₁.cache.memory (0 + 56) 2), _)
      rw [show (s₁.mark 56).cache.first = 0 from hfirst]
      rfl
    rw [bind_of_ok htake, bind_get]
    by_cases hauth : load s₁.cache.memory 0 56 ∈ s₁.passwords
    · have hauth' : (s₁.mark 56).authenticate (load s₁.cache.memory 0 56) = true := by
        rw [authenticate_mark, authenticate, List.contains_iff_mem]
        exact hauth
      rw [bind_of_ok (assertTrue_of_true _ hauth'), bind_of_ok htake']
      by_cases hcrlf : load s₁.cache.memory (0 + 56) 2 = crlf
      · refine ⟨fun _ => ?_, fun h => absurd ⟨hlong, hauth, hcrlf⟩ h⟩
        rw [bind_of_ok (assertTrue_of_true _ (decide_eq_true hcrlf))]
        rfl
      · refine ⟨fun h => absurd h.2.2 hcrlf, fun _ => ?_⟩
        exact ⟨_, 58, by omega, bind_of_error (assertTrue_of_false _ (decide_eq_false hcrlf))⟩
    · have hauth' : (s₁.mark 56).authenticate (load s₁.cache.memory 0 56) = false := by
        rw [authenticate_mark, authenticate, Bool.eq_false_iff, ne_eq, List.contains_iff_mem]
        exact hauth
      refine ⟨fun h => absurd h.2.1 hauth, fun _ => ?_⟩
      exact ⟨_, 56, by omega, bind_of_error (assertTrue_of_false _ hauth')⟩
  · refine ⟨fun h => absurd h.1 hlong, fun _ => ?_⟩
    have hshort : ¬58 ≤ s₁.cache.size := by rwa [hsize]
    exact ⟨_, 0, Nat.zero_le _, bind_of_error (assertTrue_of_false _ (decide_eq_false hshort))⟩

/-- **After the first read**: what was cached is looked at, and if it starts as a request does
the rest is a program that reads. -/
theorem parseRequest_of_readFrom (p : Platform) (hread : readFrom 1 s = (.ok (), s₁))
    (hfirst : s₁.cache.first = 0) (htaken : s₁.cache.taken = 0) :
    (Greets s₁.passwords (load s₁.cache.memory 0 s₁.cache.last) →
        parseRequest p s = (command p).run (fun s n => demand n s) (s₁.mark 58))
      ∧ (¬Greets s₁.passwords (load s₁.cache.memory 0 s₁.cache.last) →
        ∃ x n, n ≤ s₁.cache.size ∧ parseRequest p s = (.error (.thrown x), s₁.mark n)) := by
  obtain ⟨hgreets, hfails⟩ := readHeader_of_readFrom hread hfirst htaken
  refine ⟨fun h => ?_, fun h => ?_⟩
  · rw [parseRequest, bind_of_eq (hgreets h)]
    exact command_eq (by rw [taken_mark]; omega)
  · obtain ⟨x, n, hn, herror⟩ := hfails h
    exact ⟨x, n, hn, by rw [parseRequest, bind_of_error herror]⟩

theorem parseRequest_of_error {f : Fault} (p : Platform) (hread : readFrom 1 s = (.error f, s₁)) :
    parseRequest p s = (.error f, s₁) := by
  have hheader : readHeader s = (.error f, s₁) := by
    rw [readHeader, bind_of_error hread]
  rw [parseRequest, bind_of_error hheader]

theorem first_readFrom (n : ℕ) (s : Ingress) :
    (readFrom n s).2.cache.first = s.cache.first := by
  have hkept : KeptByReads fun t => t.cache.first = s.cache.first :=
    fun _ _ _ ht _ _ => ht
  exact hkept.readFrom n rfl

/-- What lasts still holds when a request was parsed or failed. -/
theorem Lasting.parseRequest {Inv : Ingress → Prop} (h : Lasting Inv) (p : Platform) (hs : Inv s)
    (hfirst : s.cache.first = 0) (htaken : s.cache.taken = 0) :
    Inv (Ingress.parseRequest p s).2 := by
  have hread := h.read.readFrom 1 hs
  have hfirst' := first_readFrom 1 s
  have htaken' := taken_readFrom 1 s
  rcases hread' : Ingress.readFrom 1 s with ⟨f | ⟨⟩, s₁⟩
  · rw [hread'] at hread
    rw [parseRequest_of_error p hread']
    exact hread
  · rw [hread', hfirst] at hfirst'
    rw [hread', htaken] at htaken'
    rw [hread'] at hread
    obtain ⟨hgreets, hfails⟩ := parseRequest_of_readFrom p hread' hfirst' htaken'
    by_cases hg : Greets s₁.passwords (load s₁.cache.memory 0 s₁.cache.last)
    · have hlong : 58 ≤ s₁.cache.size := by
        have hlen := hg.1
        rw [length_load] at hlen
        simp only at hfirst' htaken'
        rw [Cache.size]
        omega
      rw [hgreets hg]
      exact h.run (command p) (h.mark hread hlong) (by rw [taken_mark]; omega)
    · obtain ⟨x, n, hn, herror⟩ := hfails hg
      rw [herror]
      exact h.mark hread hn

end Request

/-! ## What is put back -/

/-- The cache and the layer below hold the stream. -/
def Intact (stream : Bytes) (s : Ingress) : Prop :=
  s.cache.first = 0 ∧ load s.cache.memory 0 s.cache.last ++ s.underlying.all = stream

section Transparent

variable {p : Platform} {s s₁ s' : Ingress}

/-- What `recv` hands out after the fallback was chosen. -/
theorem received_of_giveUp {stream : Bytes} {x : Exception} {e : Endpoint}
    (hintact : Intact stream s₁) (hgive : giveUp (.thrown x) s₁ = (.ok e, s')) (sizes : List ℕ) :
    received (recvRun sizes s').1 <+: stream
      ∧ (stream.length ≤ (sizes.filter (0 < ·)).length →
        received (recvRun sizes s').1 = stream) := by
  obtain ⟨htaken, hpending⟩ := pending_giveUp hintact.1 hgive
  rw [hintact.2] at hpending
  rw [← hpending]
  exact received_recvRun sizes htaken

/-- After the layer below was accepted, `read_remote` gives up when the request fails. -/
theorem fallsBack_iff : FallsBack p (.ok ()) s s' ↔ ∃ x s₁,
    parseRequest p s = (.error (.thrown x), s₁) ∧ giveUp (.thrown x) s₁ = (.ok s.remote, s') := by
  rw [FallsBack, attempt]
  constructor
  · rintro ⟨⟨x, hx⟩, hremote⟩
    rw [bind_of_ok (a := ()) rfl, readRequest] at hx
    rcases hparse : parseRequest p s with ⟨f | e, s₁⟩
    · rw [bind_of_error hparse] at hx
      cases hx
      exact ⟨x, s₁, rfl, by rw [← hremote, readRemote_of_error hparse]⟩
    · rw [bind_of_ok hparse] at hx
      cases hx
  · rintro ⟨x, s₁, hparse, hgive⟩
    refine ⟨⟨x, ?_⟩, by rw [readRemote_of_error hparse, hgive]⟩
    rw [bind_of_ok (a := ()) rfl, readRequest, bind_of_error hparse]

/-- If everything is still there when the request fails, the fallback sees it. -/
theorem transparent_of_intact
    (h : ∀ x s₁, parseRequest p s = (.error (.thrown x), s₁) → Intact s.underlying.all s₁) :
    Transparent p (.ok ()) s := by
  intro s' hback sizes
  obtain ⟨x, s₁, hparse, hgive⟩ := fallsBack_iff.mp hback
  exact received_of_giveUp (h x s₁ hparse) hgive sizes

/-- If the layer below was not accepted, nothing was read. -/
theorem transparent_of_not_accepted {accepted : Result Unit} (haccepted : accepted ≠ .ok ())
    (hintact : Intact s.underlying.all s) : Transparent p accepted s := by
  rintro s' ⟨⟨x, hx⟩, hremote⟩ sizes
  cases accepted with
  | ok u => exact absurd rfl haccepted
  | error f =>
      have hattempt : attempt p (.error f) s = (.error f, s) := bind_of_error rfl
      have hread : readRemote p (.error f) s = giveUp f s := tryCatch_of_error hattempt
      rw [hattempt] at hx
      cases hx
      exact received_of_giveUp hintact (hread.symm.trans hremote) sizes

end Transparent

/-! ## At most two pieces -/

/-- At most one more read can be made, and it goes to its place; or two, if none was made. -/
def Few (s : Ingress) : Prop :=
  s.underlying.pieces = [] ∨ s.cache.available.size = 0
    ∨ s.cache.available = ⟨s.cache.last, capacity - s.cache.last⟩
      ∧ (s.underlying.pieces.length ≤ 1 ∨ s.cache.last = 0 ∧ s.underlying.pieces.length ≤ 2)

/-- Reads that go to their places lose nothing. -/
theorem lasting_few (stream : Bytes) : Lasting fun s => Intact stream s ∧ Few s where
  read := by
    rintro s got underlying ⟨⟨hfirst, hcontent⟩, hfew⟩ hroom hread
    obtain ⟨-, hgot, hall⟩ := Source.readSome_spec hroom hread
    rcases hfew with hnil | hzero | ⟨hwindow, hpieces⟩
    · have hend := Source.readSome_eq_none_iff.mpr ⟨hroom, (Source.all_eq_nil_iff _).mpr hnil⟩
      rw [hend] at hread
      cases hread
    · omega
    · have hsize : s.cache.available.size = capacity - s.cache.last := by rw [hwindow]
      obtain ⟨hfirst', hlast', -, hload⟩ := commit_in_place hfirst hwindow (hsize ▸ hgot)
      refine ⟨⟨hfirst', ?_⟩, ?_⟩
      · show load (s.cache.commit got).memory 0 (s.cache.commit got).last ++ underlying.all = stream
        rw [hlast', hload, List.append_assoc, ← hall, hcontent]
      · have havailable : (s.cache.commit got).available
            = s.cache.available.advance (s.cache.last + got.length) := by
          rw [← hlast', ← Nat.sub_zero (s.cache.commit got).last, ← hfirst]
          rfl
        rcases hlist : s.underlying.pieces with _ | ⟨piece, rest⟩
        · have hend := Source.readSome_eq_none_iff.mpr
            ⟨hroom, (Source.all_eq_nil_iff _).mpr hlist⟩
          rw [hend] at hread
          cases hread
        obtain ⟨u, hread', hrest⟩ := Source.readSome_of_pieces hroom hlist
        rw [hread'] at hread
        cases hread
        rw [List.length_take] at hlast' havailable
        by_cases hclipped : piece.length ≤ s.cache.available.size
        · rw [hlist, List.length_cons] at hpieces
          rcases hpieces with hone | ⟨hzero, htwo⟩
          · left
            show underlying.pieces = []
            rw [hrest hclipped]
            exact List.eq_nil_of_length_eq_zero (by omega)
          · right; right
            refine ⟨?_, Or.inl ?_⟩
            · show (s.cache.commit _).available = ⟨(s.cache.commit _).last, _⟩
              rw [havailable, hlast', hwindow, hzero, Window.advance]
              simp only [Window.mk.injEq]
              rw [if_pos (by omega)]
              omega
            · show underlying.pieces.length ≤ 1
              rw [hrest hclipped]
              omega
        · -- the piece does not fit, and fills the window
          right; left
          show (s.cache.commit _).available.size = 0
          rw [havailable]
          simp only [Window.advance]
          split <;> omega
  mark := fun h _ => h

/-- With two pieces at most, nothing is lost. -/
theorem intact_of_few {p : Platform} {s : Ingress} {memory : Memory}
    (hcache : s.cache = Cache.make memory) (hpieces : s.underlying.pieces.length ≤ 2) :
    Intact s.underlying.all (parseRequest p s).2 := by
  have hstart : Intact s.underlying.all s ∧ Few s := by
    refine ⟨⟨by rw [hcache]; rfl, by rw [hcache]; rfl⟩, Or.inr (Or.inr ⟨?_, Or.inr ⟨?_, hpieces⟩⟩)⟩
    · rw [hcache]
      rfl
    · rw [hcache]
      rfl
  exact ((lasting_few s.underlying.all).parseRequest p hstart (by rw [hcache]; rfl)
    (by rw [hcache]; rfl)).1

/-! ## Requests that two pieces decide -/

/-- The rest of a request after the length of a name. -/
def afterLength (buf w : Bytes) : Reader UInt8 Fault Endpoint :=
  let buf := overwrite buf w
  let len := (buf.headD 0).toNat
  if 0 < len then
    .read (len + 2) fun w =>
      let buf := overwrite buf w
      closing ⟨.domainName, buf.take len, ntoh (buf.drop len)⟩
  else .fail badProto

/-- The rest of a request after the type of the endpoint. -/
def afterType (p : Platform) (w : Bytes) : Reader UInt8 Fault Endpoint :=
  let buf := overwrite readBuffer w
  if buf.headD 0 = 0x01 then
    .read 6 fun w =>
      let buf := overwrite buf w
      closing ⟨.ipv4, p.toStringV4 (toAddress 4 buf), ntoh (buf.drop 4)⟩
  else if buf.headD 0 = 0x03 then .read 1 (afterLength buf)
  else if buf.headD 0 = 0x04 then
    .read 18 fun w =>
      let buf := overwrite buf w
      closing ⟨.ipv6, p.toStringV6 (toAddress 16 buf), ntoh (buf.drop 16)⟩
  else .fail badProto

theorem command_eq_read (p : Platform) : command p = .read 1 fun w =>
    if w = [1] then .read 1 (afterType p) else .fail badProto := by
  have hendpoint : (parse_endpoint p).bind closing = .read 1 (afterType p) := by
    rw [parse_endpoint, Reader.bind]
    congr 1
    funext w
    rw [afterType]
    simp only
    split
    · rfl
    · split
      · rw [Reader.bind]
        congr 1
        funext w
        rw [afterLength]
        simp only
        split <;> rfl
      · split <;> rfl
  rw [command, hendpoint]

/-- A request has at most 262 bytes behind the hash and its end of line. -/
theorem within_command (p : Platform) : (command p).Within 262 := by
  have hclosing : ∀ e m, 2 ≤ m → (closing e).Within m := by
    intro e m hm
    refine ⟨hm, fun w _ => ?_⟩
    simp only
    split <;> trivial
  rw [command_eq_read]
  refine ⟨by omega, fun w _ => ?_⟩
  simp only
  split
  · refine ⟨by omega, fun tag _ => ?_⟩
    rw [afterType]
    simp only
    split
    · exact ⟨by omega, fun w _ => hclosing _ _ (by omega)⟩
    · split
      · refine ⟨by omega, fun w _ => ?_⟩
        rw [afterLength]
        simp only
        split
        · have hlen := UInt8.toNat_lt ((overwrite (overwrite readBuffer tag) w).headD 0)
          exact ⟨by omega, fun w _ => hclosing _ _ (by omega)⟩
        · trivial
      · split
        · exact ⟨by omega, fun w _ => hclosing _ _ (by omega)⟩
        · trivial
  · trivial

/-- The first 58 bytes say whether a piece starts as a request does. -/
theorem greets_of_take {passwords : List Bytes} {w w' : Bytes} (hw : 58 ≤ w'.length)
    (htake : w.take 58 = w'.take 58) (h : Greets passwords w) : Greets passwords w' := by
  obtain ⟨hlen, hmem, hcrlf⟩ := h
  have hhash : w.take 56 = w'.take 56 := by
    have h56 := congrArg (List.take 56) htake
    rwa [List.take_take, List.take_take] at h56
  have hend : (w.drop 56).take 2 = (w'.drop 56).take 2 := by
    have h58 := congrArg (List.drop 56) htake
    rwa [List.drop_take, List.drop_take] at h58
  exact ⟨hw, hhash ▸ hmem, hend ▸ hcrlf⟩

theorem Upcoming.intact {request payload w : Bytes} {s : Ingress}
    (h : Upcoming request payload s w) : Intact (request ++ payload) s :=
  ⟨h.ahead.first_eq, h.ahead.content⟩

/-- **Two pieces decide**: nothing is lost. -/
theorem intact_of_decided {p : Platform} {s : Ingress} {memory : Memory} {piece second : Bytes}
    {rest : List Bytes} (hcache : s.cache = Cache.make memory)
    (hpieces : s.underlying.pieces = piece :: second :: rest)
    (hsettled : Greets s.passwords piece →
      (command p).starves (piece.drop 58 ++ second) = false) :
    Intact s.underlying.all (parseRequest p s).2 := by
  have hcap : capacity = 512 := rfl
  have htwo : (s.underlying.pieces.take 2).flatten = piece ++ second := by
    rw [hpieces]
    simp
  have hall : s.underlying.all
      = (piece ++ second).take capacity ++ ((piece ++ second).drop capacity ++ rest.flatten) := by
    rw [← List.append_assoc, List.take_append_drop, Source.all, hpieces]
    simp
  have hr : ((piece ++ second).take capacity).length ≤ capacity := by
    rw [List.length_take]
    omega
  have hcover : ((piece ++ second).take capacity).length
      ≤ (s.underlying.pieces.take 2).flatten.length := by
    rw [htwo, List.length_take]
    omega
  obtain ⟨s₁, hread, hup, htaken, hlast, hpasswords⟩ :=
    upcoming_of_first_read hcache hall hpieces hr hcover
  obtain ⟨hgreets, hfails⟩ := parseRequest_of_readFrom p hread hup.ahead.first_eq htaken
  rw [hall]
  by_cases hg : Greets s₁.passwords (load s₁.cache.memory 0 s₁.cache.last)
  · rw [hgreets hg]
    have hlong : 58 ≤ s₁.cache.last := by
      have hlen := hg.1
      rwa [length_load] at hlen
    have hsize : 58 ≤ s₁.cache.size := by
      rw [Cache.size, hup.ahead.first_eq, htaken]
      exact hlong
    have hpiece : 58 ≤ piece.length := by omega
    have htake : (load s₁.cache.memory 0 s₁.cache.last).take 58 = piece.take 58 := by
      have hcontent := congrArg (List.take 58) (hup.ahead.content.trans hall.symm)
      rw [List.take_append_of_le_length (by rw [length_load]; exact hlong), Source.all, hpieces,
        List.flatten_cons, List.take_append_of_le_length hpiece] at hcontent
      exact hcontent
    have hdrop : ((piece ++ second).take capacity).drop 58
        = (piece.drop 58 ++ second).take (capacity - 58) := by
      rw [List.drop_take, List.drop_append_of_le_length hpiece]
    have hdecided : (command p).starves (((piece ++ second).take capacity).drop 58) = false := by
      rw [hdrop]
      refine Reader.not_starves_take (within_command p) (by omega) (hsettled ?_)
      rw [← hpasswords]
      exact greets_of_take hpiece htake hg
    have hlen : (((piece ++ second).take capacity).take 58).length = 58 := by
      rw [List.length_take, List.length_take, List.length_append]
      omega
    have hup' := Upcoming.advance (w := ((piece ++ second).take capacity).take 58)
      (t := ((piece ++ second).take capacity).drop 58) (by rwa [List.take_append_drop])
      (by rw [hlen]; exact hsize)
    rw [hlen] at hup'
    obtain ⟨w', hend, -⟩ := Reader.exists_run_of_not_starves (demand_supplies hr) (command p)
      ⟨hup', by rw [taken_mark]; omega⟩ hdecided
    exact hend.intact
  · obtain ⟨x, n, -, herror⟩ := hfails hg
    rw [herror]
    exact hup.intact

/-- **Without a third read** nothing is lost. -/
theorem intact_of_settled {p : Platform} {s : Ingress} {memory : Memory}
    (hcache : s.cache = Cache.make memory)
    (hsettled : Settled p s.passwords s.underlying.pieces) :
    Intact s.underlying.all (parseRequest p s).2 := by
  rcases hpieces : s.underlying.pieces with _ | ⟨piece, _ | ⟨second, _ | ⟨third, rest⟩⟩⟩
  · exact intact_of_few hcache (by simp [hpieces])
  · exact intact_of_few hcache (by simp [hpieces])
  · exact intact_of_few hcache (by simp [hpieces])
  · rw [hpieces] at hsettled
    exact intact_of_decided hcache hpieces hsettled

end Ingress

end Trojan

end Pichi
