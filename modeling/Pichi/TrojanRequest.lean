/-
# Trojan requests over a segmented stream

What `read_remote` and the calls of `recv` after it make of a request followed by a payload,
for every way the layer below segments the bytes.

The first two reads go to the places of the cache where their bytes are committed.  From the
third read on the window is ahead of the committed bytes, because it was advanced by the size
of the whole buffer and not by what the last read delivered: bytes that were never written
are committed in the place of the bytes read.

* `received_recvRun`: `recv` hands out what is cached and then what is still to come;
* `Upcoming`: as long as the first two reads cover the request, the cache holds the stream;
* `Kept`: otherwise the byte after the second read is never written.
-/
import Pichi.Trojan

namespace Pichi

open Transfer

namespace Trojan

/-! ## Memory -/

@[simp] theorem length_load (memory : Memory) (offset n : ℕ) :
    (load memory offset n).length = n := by
  simp [load]

theorem getElem?_load {memory : Memory} {offset n i : ℕ} (h : i < n) :
    (load memory offset n)[i]? = some (memory (offset + i)) := by
  simp [load, h]

theorem load_add (memory : Memory) (offset n k : ℕ) :
    load memory offset (n + k) = load memory offset n ++ load memory (offset + n) k := by
  simp [load, List.range_add, Nat.add_assoc]

theorem load_congr {memory memory' : Memory} {offset n : ℕ}
    (h : ∀ i, offset ≤ i → i < offset + n → memory i = memory' i) :
    load memory offset n = load memory' offset n := by
  refine List.map_congr_left fun i hi => h _ (by omega) ?_
  have hlt := List.mem_range.mp hi
  omega

theorem store_of_not_mem {memory : Memory} {offset i : ℕ} {w : Bytes}
    (h : i < offset ∨ offset + w.length ≤ i) : store memory offset w i = memory i := by
  rw [store, if_neg]
  omega

theorem load_store_self (memory : Memory) (offset : ℕ) (w : Bytes) :
    load (store memory offset w) offset w.length = w := by
  apply List.ext_getElem?
  intro i
  by_cases hi : i < w.length
  · rw [getElem?_load hi, store, if_pos (by omega), Nat.add_sub_cancel_left,
      List.getD_eq_getElem?_getD, List.getElem?_eq_getElem hi, Option.getD_some]
  · rw [List.getElem?_eq_none (by simpa using hi), List.getElem?_eq_none (by omega)]

namespace Ingress

/-! ## Draining -/

/-- What `recv` will hand out when nothing is marked as taken. -/
def pending (s : Ingress) : Bytes :=
  load s.cache.memory s.cache.first (s.cache.last - s.cache.first) ++ s.underlying.all

/-- One call of `recv`. -/
theorem recv_spec {s : Ingress} {n : ℕ} (htaken : s.cache.taken = 0) (hn : 0 < n) :
    (pending s = [] ∧ recv n s = (.error eof, s)) ∨
      ∃ got s', got ≠ [] ∧ recv n s = (.ok got, s') ∧ s'.cache.taken = 0
        ∧ pending s = got ++ pending s' := by
  have hsize : s.cache.size = s.cache.last - s.cache.first := by
    rw [Cache.size, htaken, Nat.sub_zero]
  by_cases hempty : s.cache.size = 0
  · have hload : load s.cache.memory s.cache.first (s.cache.last - s.cache.first) = [] := by
      rw [← hsize, hempty]
      rfl
    -- nothing is cached: `recv` passes on what the layer below delivers
    rcases hread : s.underlying.readSome n with _ | ⟨got, underlying⟩
    · left
      refine ⟨?_, by rw [recv, if_pos hempty, hread]⟩
      rw [pending, hload, (Source.readSome_eq_none_iff.mp hread).2, List.append_nil]
    · right
      obtain ⟨hne, -, hall⟩ := Source.readSome_spec hn hread
      refine ⟨got, { s with underlying := underlying }, hne,
        by rw [recv, if_pos hempty, hread], htaken, ?_⟩
      simp only [pending, hload, List.nil_append, hall]
  · right
    have hcopied : 0 < min s.cache.size n := by omega
    refine ⟨_, _, ?_, by rw [recv, if_neg hempty], ?_, ?_⟩
    · apply List.ne_nil_of_length_pos
      simpa [Cache.takeInto] using hcopied
    · simp only [Cache.takeInto, htaken, if_true, Cache.consume]
      split <;> rfl
    · -- either the whole of the cache is handed out, or its first bytes are
      simp only [pending, Cache.takeInto, htaken, if_true, Cache.consume, Nat.add_zero]
      split
      · rename_i hall
        have hmin : min s.cache.size n = s.cache.last - s.cache.first := by omega
        rw [hmin]
        simp [load]
      · rename_i hpart
        rw [← List.append_assoc, ← load_add]
        congr 2
        simp only
        omega

/-- Calls without a buffer return nothing and change nothing. -/
theorem recv_zero {s : Ingress} (htaken : s.cache.taken = 0) : recv 0 s = (.ok [], s) := by
  rw [recv]
  split
  · rfl
  · rename_i hsize
    have hlt : ¬s.cache.last - s.cache.first ≤ 0 := by
      rw [Cache.size] at hsize
      omega
    simp only [Cache.takeInto, Nat.min_zero, if_pos htaken, Cache.consume, if_neg hlt]
    rfl

/-- **An ingress hands out what is pending.** -/
theorem drains : Drains recv (fun s => s.cache.taken = 0) pending where
  idle := by
    intro s htaken
    exact recv_zero htaken
  step := by
    intro s n htaken hn
    rcases recv_spec htaken hn with ⟨hnil, hrecv⟩ | hgot
    · exact Or.inl ⟨hnil, eof, hrecv⟩
    · exact Or.inr hgot

theorem recvRun_eq_receiveAll (sizes : List ℕ) : recvRun sizes = receiveAll recv sizes := by
  induction sizes with
  | nil => rfl
  | cons n sizes ih =>
      funext s
      rw [recvRun, receiveAll, ih]

theorem received_eq_delivered : received = delivered := by
  funext results
  apply List.flatMap_congr
  intro r _
  cases r <;> rfl

/-- Calls of `recv` with any sizes hand out what is pending from its first byte on, and all of
it when there are as many calls with a buffer as bytes. -/
theorem received_recvRun (sizes : List ℕ) {s : Ingress} (htaken : s.cache.taken = 0) :
    received (recvRun sizes s).1 <+: pending s
      ∧ ((pending s).length ≤ (sizes.filter (0 < ·)).length →
        received (recvRun sizes s).1 = pending s) := by
  rw [recvRun_eq_receiveAll, received_eq_delivered]
  exact drains.delivered sizes s htaken

theorem received_recvRun_of_pos {sizes : List ℕ} {s : Ingress} (htaken : s.cache.taken = 0)
    (hsizes : ∀ n ∈ sizes, 0 < n) :
    received (recvRun sizes s).1 <+: pending s
      ∧ ((pending s).length ≤ sizes.length → received (recvRun sizes s).1 = pending s) := by
  have hfilter : sizes.filter (0 < ·) = sizes := by
    rw [List.filter_eq_self]
    intro n hn
    exact decide_eq_true (hsizes n hn)
  have hdrain := received_recvRun sizes htaken
  rwa [hfilter] at hdrain

/-! ## One read -/

section Read

variable {s : Ingress} {n : ℕ}

theorem readFrom_of_le (h : n ≤ s.cache.size) : readFrom n s = (.ok (), s) := by
  rw [readFrom, readFromLoop, if_pos h]

/-- A demand that the next read answers. -/
theorem readFrom_of_readSome {got : Bytes} {underlying : Source UInt8} (hlt : s.cache.size < n)
    (hpos : 0 < s.cache.available.size)
    (hread : s.underlying.readSome s.cache.available.size = some (got, underlying))
    (hle : n ≤ (s.cache.commit got).size) :
    readFrom n s = (.ok (), { s with underlying := underlying, cache := s.cache.commit got }) := by
  obtain ⟨hne, -, hall⟩ := Source.readSome_spec hpos hread
  have hgot := List.length_pos_of_ne_nil hne
  obtain ⟨fuel, hfuel⟩ : ∃ fuel, s.underlying.all.length = fuel + 1 :=
    ⟨s.underlying.all.length - 1, by rw [hall, List.length_append]; omega⟩
  rw [readFrom, hfuel, readFromLoop, if_neg (by omega), if_neg (by omega), hread]
  simp only [readFromLoop]
  rw [if_pos hle]

theorem size_of_readFromLoop {fuel : ℕ} : ∀ {s s' : Ingress},
    readFromLoop n fuel s = (.ok (), s') → n ≤ s'.cache.size := by
  induction fuel with
  | zero =>
      intro s s' h
      cases h
  | succ fuel ih =>
      intro s s' h
      rw [readFromLoop] at h
      split at h
      · cases h
        assumption
      · split at h
        · cases h
        · split at h
          · cases h
          · exact ih h

/-- A demand that returns is met. -/
theorem size_of_readFrom {s' : Ingress} (h : readFrom n s = (.ok (), s')) : n ≤ s'.cache.size :=
  size_of_readFromLoop h

/-- A property that every read keeps. -/
def KeptByReads (Inv : Ingress → Prop) : Prop :=
  ∀ s got underlying, Inv s → 0 < s.cache.available.size →
    s.underlying.readSome s.cache.available.size = some (got, underlying) →
    Inv { s with underlying := underlying, cache := s.cache.commit got }

theorem KeptByReads.readFromLoop {Inv : Ingress → Prop} (h : KeptByReads Inv)
    (n fuel : ℕ) : ∀ {s}, Inv s → Inv (Ingress.readFromLoop n fuel s).2 := by
  induction fuel with
  | zero => exact fun hs => hs
  | succ fuel ih =>
      intro s hs
      rw [Ingress.readFromLoop]
      split
      · exact hs
      · split
        · exact hs
        · rename_i hroom
          rcases hread : s.underlying.readSome s.cache.available.size with _ | ⟨got, underlying⟩
          · exact hs
          · exact ih (h s got underlying hs (Nat.pos_of_ne_zero hroom) hread)

theorem KeptByReads.readFrom {Inv : Ingress → Prop} (h : KeptByReads Inv) (n : ℕ)
    (hs : Inv s) : Inv (Ingress.readFrom n s).2 :=
  h.readFromLoop n _ hs

/-- The ingress after `n` more bytes were taken. -/
def mark (n : ℕ) (s : Ingress) : Ingress :=
  { s with cache := { s.cache with taken := s.cache.taken + n } }

@[simp] theorem taken_mark : (s.mark n).cache.taken = s.cache.taken + n := rfl

@[simp] theorem size_mark : (s.mark n).cache.size = s.cache.size - n := by
  simp only [mark, Cache.size]
  omega

@[simp] theorem authenticate_mark (hash : Bytes) :
    (s.mark n).authenticate hash = s.authenticate hash := rfl

theorem take_of_le (h : n ≤ s.cache.size) :
    take n s = (.ok (load s.cache.memory (s.cache.first + s.cache.taken) n), s.mark n) := by
  rw [take, Cache.take, if_pos h]
  rfl

theorem assertTrue_of_true {b : Bool} (e : PichiError) (h : b = true) :
    assertTrue b e s = (.ok (), s) := by
  rw [h]
  rfl

end Read

/-! ## The first two reads -/

/-- The cache and the layer below hold the stream, and the first `r` bytes of it are cached
or will be with the next read, which goes to its place. -/
structure Ahead (stream : Bytes) (r : ℕ) (s : Ingress) : Prop where
  first_eq : s.cache.first = 0
  content : load s.cache.memory 0 s.cache.last ++ s.underlying.all = stream
  enough : r ≤ s.cache.last ∨ s.cache.available = ⟨s.cache.last, capacity - s.cache.last⟩
    ∧ ∃ piece rest, s.underlying.pieces = piece :: rest ∧ r ≤ s.cache.last + piece.length

section Ahead

variable {stream : Bytes} {r : ℕ} {s : Ingress}

/-- What a read into the right place commits. -/
theorem commit_in_place {c : Cache} {got : Bytes} (hfirst : c.first = 0)
    (hwindow : c.available = ⟨c.last, capacity - c.last⟩) (hgot : got.length ≤ capacity - c.last) :
    (c.commit got).first = 0 ∧ (c.commit got).last = c.last + got.length
      ∧ (c.commit got).taken = c.taken
      ∧ load (c.commit got).memory 0 (c.last + got.length) = load c.memory 0 c.last ++ got := by
  refine ⟨hfirst, ?_, rfl, ?_⟩
  · simp only [Cache.commit]
    omega
  · simp only [Cache.commit, hwindow]
    rw [load_add, Nat.zero_add, load_store_self]
    congr 1
    exact load_congr fun i _ hi => store_of_not_mem (Or.inl (by omega))

/-- A read into the right place that answers a demand: the state after it. -/
theorem readFrom_in_place {s : Ingress} {n : ℕ} {piece : Bytes} {rest : List Bytes}
    (hfirst : s.cache.first = 0)
    (hwindow : s.cache.available = ⟨s.cache.last, capacity - s.cache.last⟩)
    (hpieces : s.underlying.pieces = piece :: rest) (hlt : s.cache.size < n)
    (hle : s.cache.taken + n ≤ s.cache.last + min (capacity - s.cache.last) piece.length) :
    ∃ got underlying, readFrom n s
          = (.ok (), { s with underlying := underlying, cache := s.cache.commit got })
      ∧ got.length = min (capacity - s.cache.last) piece.length
      ∧ s.underlying.all = got ++ underlying.all
      ∧ (piece.length ≤ capacity - s.cache.last → underlying.pieces = rest) := by
  have hsize : s.cache.size = s.cache.last - s.cache.taken := by
    rw [Cache.size, hfirst, Nat.sub_zero]
  have hroom : 0 < s.cache.available.size := by
    rw [hwindow]
    show 0 < capacity - s.cache.last
    omega
  obtain ⟨underlying, hread, hrest⟩ := Source.readSome_of_pieces hroom hpieces
  obtain ⟨-, -, hall⟩ := Source.readSome_spec hroom hread
  have hlength : (piece.take s.cache.available.size).length
      = min (capacity - s.cache.last) piece.length := by
    rw [List.length_take, hwindow]
  obtain ⟨hfirst', hlast', htaken', -⟩ := commit_in_place hfirst hwindow
    (show (piece.take s.cache.available.size).length ≤ capacity - s.cache.last by omega)
  refine ⟨_, underlying, readFrom_of_readSome hlt hroom hread ?_, hlength, hall, ?_⟩
  · rw [Cache.size, hfirst', hlast', htaken']
    omega
  · intro hpiece
    apply hrest
    rw [hwindow]
    exact hpiece

/-- A demand within the first `r` bytes is met. -/
theorem Ahead.readFrom (h : Ahead stream r s) (hr : r ≤ capacity) {n : ℕ}
    (hn : s.cache.taken + n ≤ r) :
    ∃ s', Ingress.readFrom n s = (.ok (), s') ∧ Ahead stream r s'
      ∧ s'.cache.taken = s.cache.taken ∧ s.cache.last ≤ s'.cache.last ∧ n ≤ s'.cache.size := by
  have hsize : s.cache.size = s.cache.last - s.cache.taken := by
    rw [Cache.size, h.first_eq, Nat.sub_zero]
  by_cases hle : n ≤ s.cache.size
  · exact ⟨s, readFrom_of_le hle, h, rfl, le_rfl, hle⟩
  · rcases h.enough with hr' | ⟨hwindow, piece, rest, hpieces, hr'⟩
    · omega
    · have hmin : r ≤ s.cache.last + min (capacity - s.cache.last) piece.length := by omega
      obtain ⟨got, underlying, hread, hgot, hall, -⟩ := readFrom_in_place h.first_eq hwindow
        hpieces (by omega) (show s.cache.taken + n ≤ _ by omega)
      obtain ⟨hfirst', hlast', htaken', hload⟩ := commit_in_place h.first_eq hwindow
        (show got.length ≤ capacity - s.cache.last by omega)
      refine ⟨_, hread, ⟨hfirst', ?_, Or.inl ?_⟩, htaken', ?_, ?_⟩
      · show load (s.cache.commit got).memory 0 (s.cache.commit got).last ++ underlying.all = stream
        rw [hlast', hload, List.append_assoc, ← hall, h.content]
      · show r ≤ (s.cache.commit got).last
        omega
      · show s.cache.last ≤ (s.cache.commit got).last
        omega
      · show n ≤ (s.cache.commit got).size
        rw [Cache.size]
        omega

/-- The cached bytes are the bytes of the stream. -/
theorem Ahead.load_taken (h : Ahead stream r s) {n : ℕ} (hn : n ≤ s.cache.size) :
    load s.cache.memory (s.cache.first + s.cache.taken) n
      = (stream.drop s.cache.taken).take n := by
  have hsize : s.cache.size = s.cache.last - s.cache.taken := by
    rw [Cache.size, h.first_eq, Nat.sub_zero]
  by_cases hzero : n = 0
  · simp [hzero, load]
  · have hlast : s.cache.last = s.cache.taken + (n + (s.cache.last - s.cache.taken - n)) := by omega
    rw [h.first_eq, ← h.content, hlast, load_add, load_add]
    simp only [List.append_assoc]
    rw [List.drop_left' (by simp), List.take_left' (by simp)]

end Ahead

/-- The part `w` of the request has not been taken yet, and the first two reads cover it. -/
structure Upcoming (request payload : Bytes) (s : Ingress) (w : Bytes) : Prop where
  ahead : Ahead (request ++ payload) request.length s
  taken_le : s.cache.taken ≤ s.cache.last
  taken_add : s.cache.taken + w.length = request.length
  drop_taken : request.drop s.cache.taken = w

section Upcoming

variable {request payload w t : Bytes} {s : Ingress}

theorem Upcoming.readFrom (h : Upcoming request payload s (w ++ t))
    (hr : request.length ≤ capacity) :
    ∃ s', Ingress.readFrom w.length s = (.ok (), s') ∧ Upcoming request payload s' (w ++ t)
      ∧ s'.cache.taken = s.cache.taken ∧ w.length ≤ s'.cache.size := by
  obtain ⟨hahead, hle, hadd, hdrop⟩ := h
  rw [List.length_append] at hadd
  obtain ⟨s', hread, hahead', htaken, hlast, hsize⟩ := hahead.readFrom hr
    (show s.cache.taken + w.length ≤ request.length by omega)
  refine ⟨s', hread, ⟨hahead', by omega, ?_, ?_⟩, htaken, hsize⟩
  · rw [htaken, List.length_append]
    exact hadd
  · rw [htaken]
    exact hdrop

/-- The next bytes of the cache are the next bytes of the request. -/
theorem Upcoming.load_eq (h : Upcoming request payload s (w ++ t))
    (hsize : w.length ≤ s.cache.size) :
    load s.cache.memory (s.cache.first + s.cache.taken) w.length = w := by
  have hle : s.cache.taken ≤ request.length := by
    have hadd := h.taken_add
    omega
  rw [h.ahead.load_taken hsize, List.drop_append_of_le_length hle, h.drop_taken,
    List.append_assoc, List.take_left]

theorem Upcoming.advance (h : Upcoming request payload s (w ++ t))
    (hsize : w.length ≤ s.cache.size) :
    Upcoming request payload (s.mark w.length) t := by
  obtain ⟨hahead, hle, hadd, hdrop⟩ := h
  rw [List.length_append] at hadd
  rw [Cache.size] at hsize
  refine ⟨⟨hahead.first_eq, hahead.content, hahead.enough⟩, ?_, by rw [taken_mark]; omega, ?_⟩
  · show s.cache.taken + w.length ≤ s.cache.last
    omega
  rw [taken_mark, ← List.drop_drop, hdrop, List.drop_left]

theorem Upcoming.take (h : Upcoming request payload s (w ++ t)) (hsize : w.length ≤ s.cache.size) :
    Ingress.take w.length s = (.ok w, s.mark w.length) := by
  rw [take_of_le hsize, h.load_eq hsize]

/-- `demand` works through the request. -/
theorem demand_supplies (hr : request.length ≤ capacity) :
    Reader.Supplies (fun s n => demand n s)
      fun s w => Upcoming request payload s w ∧ 0 < s.cache.taken := by
  rintro s w t ⟨h, hpos⟩
  obtain ⟨s', hread, h', htaken, hsize⟩ := h.readFrom hr
  refine ⟨s'.mark w.length, ?_, h'.advance hsize, by rw [taken_mark]; omega⟩
  show demand w.length s = _
  rw [demand, bind_of_ok hread]
  simp only [Cache.takeInto]
  rw [Nat.min_eq_right hsize, if_neg (by omega), h'.load_eq hsize]
  rfl

/-- The check of the next bytes of the request. -/
theorem Upcoming.expect (h : Upcoming request payload s (w ++ t))
    (hr : request.length ≤ capacity) :
    ∃ s', Ingress.expect w s = (.ok (), s') ∧ Upcoming request payload s' t
      ∧ s'.cache.taken = s.cache.taken + w.length := by
  obtain ⟨s', hread, h', htaken, hsize⟩ := h.readFrom hr
  refine ⟨_, ?_, h'.advance hsize, by rw [taken_mark, htaken]⟩
  rw [Ingress.expect, bind_of_ok hread, bind_of_ok (h'.take hsize),
    assertTrue_of_true _ (decide_eq_true rfl)]

/-- When the whole request has been taken, what remains is the payload. -/
theorem Upcoming.pending_clear (h : Upcoming request payload s []) :
    pending { s with cache := s.cache.clear } = payload := by
  obtain ⟨⟨hfirst, hcontent, -⟩, hle, htaken, -⟩ := h
  rw [List.length_nil, Nat.add_zero] at htaken
  obtain ⟨k, hk⟩ := Nat.exists_eq_add_of_le hle
  rw [hk, load_add, Nat.zero_add, List.append_assoc] at hcontent
  have hrest : load s.cache.memory s.cache.taken k ++ s.underlying.all = payload :=
    (List.append_inj hcontent (by rw [length_load, htaken])).2
  rw [← hrest]
  simp only [pending, Cache.clear, Cache.consume, hfirst, Nat.sub_zero, hk, Nat.zero_add]
  split
  · rename_i hall
    have hzero : k = 0 := by omega
    rw [hzero]
    rfl
  · simp only
    rw [Nat.add_sub_cancel_left]

end Upcoming

/-! ## A request covered by the first two reads -/

/-- The request of a client: the hash of a password, the command, the endpoint. -/
def request (hash ep : Bytes) : Bytes := hash ++ (crlf ++ ([1] ++ (ep ++ crlf)))

theorem length_request {hash : Bytes} (hhash : hash.length = 56) (ep : Bytes) :
    (request hash ep).length = 61 + ep.length := by
  simp [request, crlf, hhash]
  omega

/-- The bytes after the hash do not depend on it. -/
theorem getElem?_request {hash ep : Bytes} {i : ℕ} (hhash : hash.length = 56) (hi : 56 ≤ i) :
    (request hash ep)[i]? = (crlf ++ ([1] ++ (ep ++ crlf)))[i - 56]? := by
  rw [request, List.getElem?_append_right (by omega), hhash]

section Covered

variable {s : Ingress} {memory : Memory} {piece : Bytes} {rest : List Bytes}

/-- The state after the first read. -/
theorem upcoming_of_first_read {req payload : Bytes} (hcache : s.cache = Cache.make memory)
    (hall : s.underlying.all = req ++ payload) (hpieces : s.underlying.pieces = piece :: rest)
    (hr : req.length ≤ capacity)
    (hcover : req.length ≤ (s.underlying.pieces.take 2).flatten.length) :
    ∃ s', readFrom 1 s = (.ok (), s') ∧ Upcoming req payload s' req ∧ s'.cache.taken = 0
      ∧ s'.cache.last = min capacity piece.length ∧ s'.passwords = s.passwords := by
  have hpiece := List.length_pos_of_ne_nil (s.underlying.nonempty piece (by simp [hpieces]))
  have hwindow : s.cache.available = ⟨s.cache.last, capacity - s.cache.last⟩ := by
    rw [hcache]
    rfl
  have hfirst : s.cache.first = 0 := by rw [hcache]; rfl
  have hlast : s.cache.last = 0 := by rw [hcache]; rfl
  have htaken : s.cache.taken = 0 := by rw [hcache]; rfl
  have hcap : capacity = 512 := rfl
  obtain ⟨got, underlying, hread, hgot, hall', hrest⟩ := readFrom_in_place (n := 1) hfirst hwindow
    hpieces (by rw [Cache.size]; omega) (by omega)
  obtain ⟨hfirst', hlast', htaken', hload⟩ := commit_in_place hfirst hwindow
    (show got.length ≤ capacity - s.cache.last by omega)
  refine ⟨_, hread, ⟨⟨hfirst', ?_, ?_⟩, ?_, ?_, ?_⟩, htaken'.trans htaken, ?_, rfl⟩
  · show load (s.cache.commit got).memory 0 (s.cache.commit got).last ++ underlying.all = _
    rw [hlast', hload, hlast, ← hall, hall']
    rfl
  · show req.length ≤ (s.cache.commit got).last ∨ (s.cache.commit got).available
        = ⟨(s.cache.commit got).last, capacity - (s.cache.commit got).last⟩
      ∧ ∃ piece rest, underlying.pieces = piece :: rest
        ∧ req.length ≤ (s.cache.commit got).last + piece.length
    by_cases hle : req.length ≤ got.length
    · exact Or.inl (by omega)
    · -- the first piece was read whole, and the request goes on in the second
      right
      have hpiece' : got.length = piece.length := by omega
      have hunderlying := hrest (by omega)
      refine ⟨?_, ?_⟩
      · simp only [Cache.commit, hwindow, hlast, hfirst, Window.advance]
        simp only [Window.mk.injEq]
        rw [if_pos (by omega)]
        omega
      · cases rest with
        | nil =>
            rw [hpieces] at hcover
            simp at hcover
            omega
        | cons second rest =>
            refine ⟨second, rest, hunderlying, ?_⟩
            rw [hpieces] at hcover
            simp at hcover
            omega
  · show (s.cache.commit got).taken ≤ (s.cache.commit got).last
    omega
  · show (s.cache.commit got).taken + req.length = req.length
    omega
  · show req.drop (s.cache.commit got).taken = req
    rw [htaken', htaken, List.drop_zero]
  · show (s.cache.commit got).last = min capacity piece.length
    omega

/-- The header of a request with a known hash is accepted. -/
theorem readHeader_of_covered {hash t payload : Bytes} (hcache : s.cache = Cache.make memory)
    (hall : s.underlying.all = (hash ++ (crlf ++ ([1] ++ t))) ++ payload)
    (hpieces : s.underlying.pieces = piece :: rest) (hpiece : 58 ≤ piece.length)
    (hr : (hash ++ (crlf ++ ([1] ++ t))).length ≤ capacity)
    (hcover : (hash ++ (crlf ++ ([1] ++ t))).length
      ≤ (s.underlying.pieces.take 2).flatten.length)
    (hhash : hash.length = 56) (hknown : hash ∈ s.passwords) :
    ∃ s', readHeader s = (.ok (), s')
      ∧ Upcoming (hash ++ (crlf ++ ([1] ++ t))) payload s' t ∧ 0 < s'.cache.taken := by
  obtain ⟨s₁, hread, h₁, htaken₁, hlast₁, hpasswords⟩ :=
    upcoming_of_first_read hcache hall hpieces hr hcover
  have hsize₁ : 58 ≤ s₁.cache.size := by
    have hcap : capacity = 512 := rfl
    rw [Cache.size, h₁.ahead.first_eq, htaken₁]
    omega
  have hsize : hash.length ≤ s₁.cache.size := by omega
  have hsize' : crlf.length ≤ (s₁.mark hash.length).cache.size := by
    rw [size_mark]
    show 2 ≤ s₁.cache.size - hash.length
    omega
  have htake := h₁.take hsize
  have htake' : take 2 (s₁.mark hash.length) = (.ok crlf, (s₁.mark hash.length).mark 2) :=
    (h₁.advance hsize).take hsize'
  obtain ⟨s₂, hexpect, h₂, htaken₂⟩ := ((h₁.advance hsize).advance hsize').expect hr
  have hauth : (s₁.mark hash.length).authenticate hash = true := by
    rw [authenticate_mark, authenticate, hpasswords, List.contains_iff_mem]
    exact hknown
  refine ⟨s₂, ?_, h₂, ?_⟩
  · rw [readHeader, bind_of_ok hread, bind_get,
      bind_of_ok (assertTrue_of_true _ (decide_eq_true hsize₁)), ← hhash, bind_of_ok htake,
      bind_get, bind_of_ok (assertTrue_of_true _ hauth)]
    rw [bind_of_ok htake', bind_of_ok (assertTrue_of_true _ (decide_eq_true rfl))]
    exact hexpect
  · rw [htaken₂, taken_mark, taken_mark]
    omega

/-- **A covered request is parsed**, and the payload is what is left to `recv`. -/
theorem parseRequest_of_covered {p : Platform} (hp : p.AddressText) {e : Endpoint} {size : ℕ}
    {hash ep payload : Bytes} (hep : serializeEndpoint p e size = .ok ep)
    (hcache : s.cache = Cache.make memory) (hall : s.underlying.all = request hash ep ++ payload)
    (hpieces : s.underlying.pieces = piece :: rest) (hpiece : 58 ≤ piece.length)
    (hr : (request hash ep).length ≤ capacity)
    (hcover : (request hash ep).length ≤ (s.underlying.pieces.take 2).flatten.length)
    (hhash : hash.length = 56) (hknown : hash ∈ s.passwords) :
    ∃ e' s', parseRequest p s = (.ok e', s') ∧ SameEndpoint p e e'
      ∧ pending { s' with cache := s'.cache.clear } = payload := by
  obtain ⟨s₁, hheader, h₁, hpos⟩ :=
    readHeader_of_covered hcache hall hpieces hpiece hr hcover hhash hknown
  obtain ⟨e', s₂, hparse, ⟨h₂, -⟩, hsame⟩ :=
    parse_endpoint_of_serialize hp (demand_supplies hr).suppliesSome hep ⟨h₁, hpos⟩
  obtain ⟨s₃, hexpect, h₃, -⟩ := Upcoming.expect (w := crlf) (t := [])
    (by rw [List.append_nil]; exact h₂) hr
  refine ⟨e', s₃, ?_, hsame, h₃.pending_clear⟩
  rw [parseRequest, bind_of_ok hheader, bind_of_ok hparse, bind_of_ok hexpect]
  rfl

end Covered

/-! ## The third read -/

/-- Where the reads go, seen from the cell `q` that follows the bytes of the first two
pieces: the first two reads stop before it, and the window is past it from then on. -/
inductive Misses (q : ℕ) (s : Ingress) : Prop where
  | first (piece second : Bytes) (rest : List Bytes)
      (hpieces : s.underlying.pieces = piece :: second :: rest)
      (hwindow : s.cache.last = s.cache.available.offset) (hstart : s.cache.available.offset = 0)
      (hq : piece.length + second.length = q)
  | second (piece : Bytes) (rest : List Bytes) (hpieces : s.underlying.pieces = piece :: rest)
      (hwindow : s.cache.last = s.cache.available.offset) (hpos : 0 < s.cache.available.offset)
      (hq : s.cache.available.offset + piece.length = q)
  | past (hq : q < s.cache.available.offset)

/-- What holds until the request is parsed or given up: the committed bytes are below the
window, none of the bytes of the stream is lost from the count, and the cell `q` holds what
it held in the beginning. -/
structure Kept (q : ℕ) (v : UInt8) (total : ℕ) (s : Ingress) : Prop where
  first_eq : s.cache.first = 0
  taken_le : s.cache.taken ≤ s.cache.last
  last_le : s.cache.last ≤ s.cache.available.offset
  window : s.cache.available.offset + s.cache.available.size = capacity
  total_eq : s.cache.last + s.underlying.all.length = total
  stale : s.cache.memory q = v
  misses : Misses q s

/-- The way from `s` to `s'` takes the bytes `w`, and leaves the committed ones alone. -/
structure Took (q : ℕ) (v : UInt8) (total : ℕ) (s : Ingress) (w : Bytes) (s' : Ingress) : Prop where
  kept : Kept q v total s'
  taken_eq : s'.cache.taken = s.cache.taken + w.length
  last_le : s.cache.last ≤ s'.cache.last
  frozen : ∀ i < s.cache.last, s'.cache.memory i = s.cache.memory i
  word : load s'.cache.memory s.cache.taken w.length = w

section Third

variable {q : ℕ} {v : UInt8} {total : ℕ} {s s' : Ingress}

theorem Kept.took_nil (h : Kept q v total s) : Took q v total s [] s :=
  ⟨h, rfl, le_rfl, fun _ _ => rfl, rfl⟩

theorem took_trace : Trace (Took q v total) where
  stay h := h.kept.took_nil
  trans := by
    intro s w s' w' s'' h h'
    refine ⟨h'.kept, ?_, h.last_le.trans h'.last_le, ?_, ?_⟩
    · rw [h'.taken_eq, h.taken_eq, List.length_append, Nat.add_assoc]
    · intro i hi
      rw [h'.frozen i (by have hle := h.last_le; omega), h.frozen i hi]
    · -- the bytes taken first are committed, and stay what they were
      have hle := h.kept.taken_le
      rw [h.taken_eq] at hle
      have hword : load s''.cache.memory s.cache.taken w.length = w := by
        rw [load_congr fun i _ hi => h'.frozen i (by omega), h.word]
      rw [List.length_append, load_add, hword, ← h.taken_eq, h'.word]

/-- A read that does not fit the cell `q`. -/
theorem Misses.commit (h : Kept q v total s) (hq : q < capacity) {got : Bytes}
    {underlying : Source UInt8} (hroom : 0 < s.cache.available.size)
    (hread : s.underlying.readSome s.cache.available.size = some (got, underlying)) :
    (q < s.cache.available.offset ∨ s.cache.available.offset + got.length ≤ q) ∧
      Misses q { s with underlying := underlying, cache := s.cache.commit got } := by
  have hwindow' := h.window
  have hcommit : (s.cache.commit got).available
      = s.cache.available.advance (s.cache.last + min got.length (capacity - s.cache.last)) := by
    simp only [Cache.commit, h.first_eq, Nat.sub_zero]
  cases h.misses with
  -- the window starts at 0, where the first piece belongs
  | first piece second rest hpieces hwindow hstart hq' =>
      have hpiece := List.length_pos_of_ne_nil (s.underlying.nonempty piece (by simp [hpieces]))
      have hsecond := List.length_pos_of_ne_nil (s.underlying.nonempty second (by simp [hpieces]))
      obtain ⟨u, hread', hrest⟩ := Source.readSome_of_pieces hroom hpieces
      rw [hread', List.take_of_length_le (by omega)] at hread
      cases hread
      refine ⟨Or.inr (by omega), Misses.second second rest (hrest (by omega)) ?_ ?_ ?_⟩
      · rw [hcommit]
        simp only [Cache.commit, Window.advance]
        omega
      · rw [hcommit]
        simp only [Window.advance]
        omega
      · rw [hcommit]
        simp only [Window.advance]
        omega
  -- advancing by the whole buffer takes the window past the end of the second piece
  | second piece rest hpieces hwindow hpos hq' =>
      obtain ⟨u, hread', hrest⟩ := Source.readSome_of_pieces hroom hpieces
      rw [hread', List.take_of_length_le (by omega)] at hread
      cases hread
      refine ⟨Or.inr (by omega), Misses.past ?_⟩
      rw [hcommit]
      simp only [Window.advance]
      omega
  -- the window never moves back
  | past hq' =>
      refine ⟨Or.inl hq', Misses.past ?_⟩
      rw [hcommit]
      simp only [Window.advance]
      omega

/-- One read takes nothing and keeps everything. -/
theorem took_commit (h : Kept q v total s) (hq : q < capacity) {got : Bytes}
    {underlying : Source UInt8} (hroom : 0 < s.cache.available.size)
    (hread : s.underlying.readSome s.cache.available.size = some (got, underlying)) :
    Took q v total s [] { s with underlying := underlying, cache := s.cache.commit got } := by
  obtain ⟨hmiss, hmisses⟩ := Misses.commit h hq hroom hread
  obtain ⟨-, hgot, hall⟩ := Source.readSome_spec hroom hread
  obtain ⟨hfirst, htaken, hlast, hwindow, htotal, hstale, -⟩ := h
  have hlast' : (s.cache.commit got).last = s.cache.last + got.length := by
    simp only [Cache.commit]
    omega
  have havailable : (s.cache.commit got).available
      = s.cache.available.advance (s.cache.last + got.length) := by
    rw [← hlast']
    simp only [Cache.commit, hfirst, Nat.sub_zero]
  refine ⟨⟨hfirst, ?_, ?_, ?_, ?_, ?_, hmisses⟩, rfl, ?_, ?_, rfl⟩
  · show s.cache.taken ≤ (s.cache.commit got).last
    omega
  · show (s.cache.commit got).last ≤ (s.cache.commit got).available.offset
    rw [havailable, hlast']
    simp only [Window.advance]
    omega
  · show (s.cache.commit got).available.offset + (s.cache.commit got).available.size = capacity
    rw [havailable]
    simp only [Window.advance]
    split <;> omega
  · show (s.cache.commit got).last + underlying.all.length = total
    rw [hall, List.length_append] at htotal
    omega
  · exact (store_of_not_mem hmiss).trans hstale
  · show s.cache.last ≤ (s.cache.commit got).last
    omega
  · exact fun i hi => store_of_not_mem (Or.inl (by omega))

theorem traced_readFrom (hq : q < capacity) (n : ℕ) (h : Kept q v total s) :
    Traced (Took q v total) s (readFrom n) fun _ w => w = [] := by
  have hkept : KeptByReads (Took q v total s []) := by
    intro t got underlying htook hroom hread
    exact took_trace.trans htook (took_commit htook.kept hq hroom hread)
  exact ⟨[], hkept.readFrom n h.took_nil, fun _ _ => rfl⟩

theorem traced_assertTrue (b : Bool) (e : PichiError) (h : Kept q v total s) :
    Traced (Took q v total) s (assertTrue b e) fun _ w => w = [] ∧ b = true := by
  refine ⟨[], h.took_nil, fun a ha => ⟨rfl, ?_⟩⟩
  cases b with
  | true => rfl
  | false => cases ha

/-- Marking bytes of the cache as taken. -/
theorem Kept.took_mark (h : Kept q v total s) {n : ℕ} (hn : n ≤ s.cache.size) :
    Took q v total s (load s.cache.memory (s.cache.first + s.cache.taken) n) (s.mark n) := by
  obtain ⟨hfirst, htaken, hlast, hwindow, htotal, hstale, hmisses⟩ := h
  rw [Cache.size, hfirst] at hn
  refine ⟨⟨hfirst, ?_, hlast, hwindow, htotal, hstale, ?_⟩, ?_, le_rfl, fun _ _ => rfl, ?_⟩
  · show s.cache.taken + n ≤ s.cache.last
    omega
  · cases hmisses with
    | first piece second rest hpieces hwindow hstart hq' =>
        exact .first piece second rest hpieces hwindow hstart hq'
    | second piece rest hpieces hwindow hpos hq' =>
        exact .second piece rest hpieces hwindow hpos hq'
    | past hq' => exact .past hq'
  · rw [length_load]
    rfl
  · rw [length_load, hfirst, Nat.zero_add]
    rfl

theorem traced_take (n : ℕ) (h : Kept q v total s) :
    Traced (Took q v total) s (take n) fun got w => got = w ∧ w.length = n := by
  by_cases hn : n ≤ s.cache.size
  · exact Traced.of_ok (take_of_le hn) (h.took_mark hn) ⟨rfl, length_load _ _ _⟩
  · have htake : take n s = (.error Cache.misc, s) := by
      rw [take, Cache.take, if_neg hn]
    exact Traced.of_error htake h.took_nil

/-- Once something was taken, `demand` takes what it returns. -/
theorem traced_demand (hq : q < capacity) (n : ℕ) (h : Kept q v total s)
    (hpos : 0 < s.cache.taken) :
    Traced (Took q v total) s (demand n) fun got w => got = w ∧ w.length = n := by
  refine (traced_readFrom hq n h).bind took_trace fun _ w s' hread htook hnil => ?_
  subst hnil
  have hsize : n ≤ s'.cache.size := size_of_readFrom hread
  have htaken : s'.cache.taken ≠ 0 := by
    have heq := htook.taken_eq
    omega
  refine Traced.of_ok ?_ (htook.kept.took_mark hsize) ⟨rfl, length_load _ _ _⟩
  simp only [Cache.takeInto]
  rw [Nat.min_eq_right hsize, if_neg htaken]
  rfl

/-- A check takes what it expects. -/
theorem traced_expect (hq : q < capacity) (x : Bytes) (h : Kept q v total s) :
    Traced (Took q v total) s (expect x) fun _ w => w = x := by
  refine (traced_readFrom hq _ h).bind took_trace fun _ w₁ s₁ _ h₁ hw₁ => ?_
  refine (traced_take _ h₁.kept).bind took_trace fun got w₂ s₂ _ h₂ hw₂ => ?_
  obtain ⟨rfl, -⟩ := hw₂
  obtain ⟨w₃, h₃, hw₃⟩ := traced_assertTrue (got = x) .badProto h₂.kept
  refine ⟨w₃, h₃, fun a ha => ?_⟩
  obtain ⟨rfl, heq⟩ := hw₃ a ha
  rw [hw₁, List.nil_append, List.append_nil]
  exact of_decide_eq_true heq

/-- The header takes 56 bytes that are not looked at here, and the fixed ones. -/
theorem traced_readHeader (hq : q < capacity) (h : Kept q v total s) :
    Traced (Took q v total) s readHeader fun _ w =>
      ∃ hash, hash.length = 56 ∧ w = hash ++ (crlf ++ [1]) := by
  refine (traced_readFrom hq _ h).bind took_trace fun _ w₁ s₁ _ h₁ hw₁ => ?_
  refine Traced.bind took_trace (Q := fun _ w => w = [])
    (Traced.of_ok rfl h₁.kept.took_nil rfl) fun st w₂ s₂ _ h₂ hw₂ => ?_
  refine (traced_assertTrue _ _ h₂.kept).bind took_trace fun _ w₃ s₃ _ h₃ hw₃ => ?_
  refine (traced_take _ h₃.kept).bind took_trace fun hash w₄ s₄ _ h₄ hw₄ => ?_
  refine Traced.bind took_trace (Q := fun _ w => w = [])
    (Traced.of_ok rfl h₄.kept.took_nil rfl) fun st w₅ s₅ _ h₅ hw₅ => ?_
  refine (traced_assertTrue _ _ h₅.kept).bind took_trace fun _ w₆ s₆ _ h₆ hw₆ => ?_
  refine (traced_take _ h₆.kept).bind took_trace fun got w₇ s₇ _ h₇ hw₇ => ?_
  refine (traced_assertTrue _ _ h₇.kept).bind took_trace fun _ w₈ s₈ _ h₈ hw₈ => ?_
  obtain ⟨w₉, h₉, hw₉⟩ := traced_expect hq [1] h₈.kept
  refine ⟨w₉, h₉, fun a ha => ⟨w₄, hw₄.2, ?_⟩⟩
  rw [hw₁, hw₂, hw₃.1, hw₅, hw₆.1, hw₈.1, hw₉ a ha, ← hw₇.1, of_decide_eq_true hw₈.2]
  rfl

/-- **What a parsed request took.**  It is a request, of the endpoint that was returned. -/
theorem traced_parseRequest {p : Platform} (hq : q < capacity) (h : Kept q v total s) :
    Traced (Took q v total) s (parseRequest p) fun e w =>
      ∃ hash used, hash.length = 56 ∧ w = request hash used
        ∧ (parse_endpoint p).run fromBytes used = (.ok e, []) := by
  refine (traced_readHeader hq h).bind took_trace fun _ w₁ s₁ _ h₁ hw₁ => ?_
  obtain ⟨hash, hhash, rfl⟩ := hw₁
  have hpos : 0 < s₁.cache.taken := by
    have htaken := h₁.taken_eq
    rw [List.length_append] at htaken
    omega
  refine Traced.bind took_trace (Traced.run took_trace fromBytes_supplies (parse_endpoint p)
    h₁.kept.took_nil fun h n => traced_demand hq n h.kept ?_) fun e used s₂ _ h₂ hused => ?_
  · have htaken := h.taken_eq
    omega
  · refine (traced_expect hq crlf h₂.kept).bind took_trace fun _ w₃ s₃ _ h₃ hw₃ => ?_
    refine Traced.of_ok (w := []) rfl h₃.kept.took_nil ⟨hash, used, hhash, ?_, ?_⟩
    · rw [hw₃, request]
      simp
    · have hrun := hused []
      rwa [List.append_nil] at hrun

end Third

/-! ## Every segmentation -/

/-- The request of an endpoint, followed by a payload, is understood: `read_remote` returns
that endpoint, and what calls of `recv` return afterwards is the payload from its first byte
on, and all of it when there are as many calls as bytes. -/
def Parses (p : Platform) (e : Endpoint) (payload : Bytes) (s : Ingress) : Prop :=
  ∃ e' s', readRemote p (.ok ()) s = (.ok e', s') ∧ SameEndpoint p e e' ∧
    ∀ sizes : List ℕ, (∀ n ∈ sizes, 0 < n) →
      received (recvRun sizes s').1 <+: payload
        ∧ (payload.length ≤ sizes.length → received (recvRun sizes s').1 = payload)

section Remote

variable {p : Platform} {s s' : Ingress} {e : Endpoint}

theorem readRemote_of_ok (h : parseRequest p s = (.ok e, s')) :
    readRemote p (.ok ()) s = (.ok e, { s' with cache := s'.cache.clear }) := by
  rw [readRemote]
  apply tryCatch_of_ok
  refine (bind_of_ok rfl).trans ?_
  rw [readRequest, bind_of_ok h]
  rfl

theorem readRemote_of_error {f : Fault} (h : parseRequest p s = (.error f, s')) :
    readRemote p (.ok ()) s = giveUp f s' := by
  rw [readRemote]
  apply tryCatch_of_error
  refine (bind_of_ok rfl).trans ?_
  rw [readRequest, bind_of_error h]

/-- What is handed out after the fallback was chosen. -/
theorem pending_giveUp {f : Fault} {s₁ : Ingress} (hfirst : s.cache.first = 0)
    (h : giveUp f s = (.ok e, s₁)) :
    s₁.cache.taken = 0 ∧ pending s₁ = load s.cache.memory 0 s.cache.last ++ s.underlying.all := by
  unfold giveUp at h
  split at h
  · cases h
    refine ⟨rfl, ?_⟩
    simp only [pending, Cache.rollback]
    rw [hfirst, Nat.sub_zero]
  · cases h

end Remote

section Segmentation

variable {p : Platform} {sha224 : Bytes → Digest} {cred : TrojanIngressCredential} {pw : Bytes}
  {opt : TrojanOption} {fallback : Bool} {e : Endpoint} {size : ℕ} {ep payload : Bytes}
  {src : Source UInt8} {piece : Bytes} {rest : List Bytes}

/-- The first two reads cover the request. -/
theorem parses_of_covered (hp : p.AddressText) (hpw : pw ∈ cred.credential.keys)
    (hep : serializeEndpoint p e size = .ok ep)
    (hsrc : src.all = request (sha224 pw).1 ep ++ payload) (hpieces : src.pieces = piece :: rest)
    (hpiece : 58 ≤ piece.length) (memory : Memory)
    (hcover : (request (sha224 pw).1 ep).length ≤ (src.pieces.take 2).flatten.length) :
    Parses p e payload (make sha224 cred opt fallback memory src) := by
  have hr : (request (sha224 pw).1 ep).length ≤ capacity := by
    have hle := length_serializeEndpoint_le hep
    rw [length_request (sha224 pw).2]
    show 61 + ep.length ≤ 512
    omega
  have hknown : (sha224 pw).1 ∈ (make sha224 cred opt fallback memory src).passwords :=
    List.mem_map.mpr ⟨pw, hpw, rfl⟩
  obtain ⟨e', s', hparse, hsame, hpending⟩ := parseRequest_of_covered hp hep
    (s := make sha224 cred opt fallback memory src) rfl hsrc hpieces hpiece hr hcover
    (sha224 pw).2 hknown
  refine ⟨e', _, readRemote_of_ok hparse, hsame, fun sizes hsizes => ?_⟩
  have hdrain := received_recvRun_of_pos (s := { s' with cache := s'.cache.clear }) rfl hsizes
  rwa [hpending] at hdrain

/-- The byte after the first two reads is the one that the cell of the cache held, unless
the endpoint is another one or the payload is not returned. -/
theorem not_parses_of_stale (hp : p.AddressText) (hep : serializeEndpoint p e size = .ok ep)
    {hash : Bytes} (hhash : hash.length = 56) {s : Ingress} {q total : ℕ} {v : UInt8}
    (hkept : Kept q v total s) (htaken : s.cache.taken = 0)
    (hq : 56 ≤ q) (hlt : q < (request hash ep).length) (hv : (request hash ep)[q]? ≠ some v)
    (htotal : total = (request hash ep).length + payload.length) : ¬ Parses p e payload s := by
  rintro ⟨e', s', hremote, hsame, hrecv⟩
  have hlength := length_request hhash ep
  have hle := length_serializeEndpoint_le hep
  have hcap : capacity = 512 := rfl
  obtain ⟨w, htook, hw⟩ := traced_parseRequest (p := p) (by omega) hkept
  rcases hparse : parseRequest p s with ⟨f | e₁, s₁⟩
  · -- given up: `recv` starts with the request again
    rw [hparse] at htook
    rw [readRemote_of_error hparse] at hremote
    obtain ⟨htaken', hpending⟩ := pending_giveUp htook.kept.first_eq hremote
    have hlong : (pending s').length = total := by
      rw [hpending, List.length_append, length_load, htook.kept.total_eq]
    have hsizes : ∀ n ∈ List.replicate (pending s').length 1, 0 < n := by
      intro n hn
      rw [List.eq_of_mem_replicate hn]
      omega
    have hall := (received_recvRun_of_pos htaken' hsizes).2 (by rw [List.length_replicate])
    have hprefix := (hrecv _ hsizes).1.length_le
    rw [hall] at hprefix
    omega
  · -- parsed: what was taken is a request of this endpoint, with the cell among it
    rw [hparse] at htook hw
    rw [readRemote_of_ok hparse] at hremote
    cases hremote
    obtain ⟨hash', used, hhash', rfl, hrun⟩ := hw _ rfl
    obtain ⟨used', hused, hserialize⟩ := serialize_of_parse_endpoint hp hrun
    rw [List.append_nil] at hused
    subst hused
    have hused' := serializeEndpoint_of_same hsame hep (hserialize _ le_rfl)
    subst hused'
    have hcell : (request hash' used)[q]? = (request hash used)[q]? := by
      rw [getElem?_request hhash hq, getElem?_request hhash' hq]
    have hlt' : q < (request hash' used).length := by
      rw [length_request hhash']
      omega
    apply hv
    rw [← hcell, ← htook.word, getElem?_load hlt', htaken, Nat.zero_add, htook.kept.stale]

/-- **Trojan requests and segmentation.**  A well-formed request followed by a payload, in any
segmentation whose first piece is long enough for `read_remote` to look at it, is understood
whatever the memory of the cache held before, if and only if the first two pieces contain
the whole request. -/
theorem parses_iff_covered (hp : p.AddressText) (hpw : pw ∈ cred.credential.keys)
    (hep : serializeEndpoint p e size = .ok ep)
    (hsrc : src.all = request (sha224 pw).1 ep ++ payload) (hpieces : src.pieces = piece :: rest)
    (hpiece : 58 ≤ piece.length) :
    (∀ memory, Parses p e payload (make sha224 cred opt fallback memory src))
      ↔ (request (sha224 pw).1 ep).length ≤ (src.pieces.take 2).flatten.length := by
  refine ⟨fun hparses => ?_, fun hcover memory =>
    parses_of_covered hp hpw hep hsrc hpieces hpiece memory hcover⟩
  by_contra hshort
  have hlength := length_request (sha224 pw).2 ep
  have hle := length_serializeEndpoint_le hep
  cases rest with
  | nil =>
      -- a single piece is the whole stream
      have hall : src.all = (src.pieces.take 2).flatten := by
        rw [Source.all, hpieces]
        rfl
      rw [← hall, hsrc, List.length_append] at hshort
      omega
  | cons second rest =>
      have htwo : (src.pieces.take 2).flatten.length = piece.length + second.length := by
        rw [hpieces]
        simp
      rw [htwo, not_le] at hshort
      obtain ⟨x, hx⟩ : ∃ x, (request (sha224 pw).1 ep)[piece.length + second.length]? = some x :=
        ⟨_, List.getElem?_eq_getElem hshort⟩
      have hkept : Kept (piece.length + second.length) (x + 1) src.all.length
          (make sha224 cred opt fallback (fun _ => x + 1) src) := by
        refine ⟨rfl, le_rfl, le_rfl, rfl, ?_, rfl, .first piece second rest hpieces rfl rfl rfl⟩
        show 0 + src.all.length = src.all.length
        omega
      refine not_parses_of_stale hp hep (sha224 pw).2 hkept rfl (by omega) hshort ?_ ?_
        (hparses _)
      · rw [hx]
        intro heq
        have hx1 : x = x + 1 := Option.some.inj heq
        simp at hx1
      · rw [hsrc, List.length_append]

end Segmentation

/-- A password, its hash, and what the ingress is configured with. -/
def Example.hash : Bytes := lit "bebeef056d2fc0c96fbdd3372c8b766a0d3b5bac45cc56a4f15235cd"

theorem Example.length_hash : Example.hash.length = 56 := rfl

def Example.endpoint : Endpoint := ⟨.domainName, lit "example.com", 443⟩

/-- The ingress of the examples over a given layer. -/
def Example.ingress (memory : Memory) (src : Source UInt8) : Ingress :=
  make (fun _ => ⟨Example.hash, Example.length_hash⟩) ⟨[⟨lit "pw", ()⟩].toAList⟩
    ⟨⟨.ipv4, lit "127.0.0.1", 80⟩⟩ true memory src

/-- The request for `example.com:443` and five bytes of payload. -/
def Example.stream : Bytes :=
  request Example.hash (3 :: 11 :: (lit "example.com" ++ [1, 187])) ++ lit "hello"

/-- The request in two pieces. -/
theorem parses_iff_covered_example :
    ∃ src : Source UInt8, src.pieces = [Example.stream.take 58, Example.stream.drop 58]
      ∧ ∀ memory, Parses Reference.platform Example.endpoint (lit "hello")
        (Example.ingress memory src) := by
  refine ⟨⟨[Example.stream.take 58, Example.stream.drop 58], by decide⟩, rfl, ?_⟩
  have hpw : lit "pw" ∈ ([⟨lit "pw", ()⟩].toAList : ValueMap Unit).keys := by decide
  have hep : serializeEndpoint Reference.platform Example.endpoint 259
      = .ok (3 :: 11 :: (lit "example.com" ++ [1, 187])) := by decide
  exact (parses_iff_covered Reference.platform_addressText hpw hep (by decide) rfl
    (by decide)).mpr (by decide)

/-- The request with its command in a piece of its own: with memory that holds zeroes the
ingress chooses the fallback. -/
theorem parses_counterexample :
    ∃ src : Source UInt8,
      src.pieces = [Example.stream.take 58, [1], Example.stream.drop 59]
      ∧ src.all = Example.stream
      ∧ ¬ Parses Reference.platform Example.endpoint (lit "hello")
        (Example.ingress (fun _ => 0) src) := by
  refine ⟨⟨[Example.stream.take 58, [1], Example.stream.drop 59], by decide⟩, rfl, by decide, ?_⟩
  rintro ⟨e', s', hremote, hsame, -⟩
  have hfallback : (readRemote Reference.platform (.ok ()) (Example.ingress (fun _ => 0)
      ⟨[Example.stream.take 58, [1], Example.stream.drop 59], by decide⟩)).1
      = .ok ⟨.ipv4, lit "127.0.0.1", 80⟩ := by
    decide +kernel
  rw [hremote] at hfallback
  cases hfallback
  exact absurd hsame.1 (by decide)

end Ingress

end Trojan

end Pichi
