/-
# The window of the Trojan cache

Whether `Cache::read_from` comes to an end.  After each read the window for the next one is
advanced by everything that was committed so far, so that reads of `r₁`, `r₂`, … bytes use up
`r₁ + (r₁ + r₂) + …` bytes of it.  Once it is used up, `read_some` returns nothing at once and
the loop goes on for ever.

The bytes a window was advanced over too far are committed with what the memory held before.
They decide what the parser asks for next, and so whether it asks for more than there is.

**Main result** (`finishes_iff`): on every stream, in any segmentation, every call of
`read_from` made by `read_remote` comes to an end if and only if the stream ends before the
window is used up, or the bytes that are committed by then decide about the request.
-/
import Pichi.TrojanThirdRead

namespace Pichi

open Transfer

namespace Trojan

namespace Ingress

/-! ## The loop as it stands -/

/-- The loop of `Cache::read_from`, as far as a number of rounds goes. -/
def rounds (n : ℕ) : ℕ → Ingress → Option (Result Unit × Ingress)
  | 0, _ => none
  | fuel + 1, s =>
    if n ≤ s.cache.size then some (.ok (), s)
    else
      match s.underlying.readSome s.cache.available.size with
      | none => some (.error eof, s)
      -- a read into an empty window returns nothing, and takes nothing
      | some (got, underlying) => rounds n fuel (s.after got underlying)

section Rounds

variable {n : ℕ} {s : Ingress}

theorem rounds_succ_of_lt (fuel : ℕ) (hlt : s.cache.size < n) : rounds n (fuel + 1) s =
    match s.underlying.readSome s.cache.available.size with
    | none => some (.error eof, s)
    | some (got, underlying) => rounds n fuel (s.after got underlying) := by
  rw [rounds, if_neg (by omega)]

/-- Some number of rounds is one round and some more. -/
theorem exists_rounds_succ {r : Result Unit × Ingress} :
    (∃ fuel, rounds n fuel s = some r) ↔ ∃ fuel, rounds n (fuel + 1) s = some r := by
  constructor
  · rintro ⟨fuel, h⟩
    cases fuel with
    | zero => cases h
    | succ fuel => exact ⟨fuel, h⟩
  · rintro ⟨fuel, h⟩
    exact ⟨fuel + 1, h⟩

/-- A loop that ends in its first round. -/
theorem exists_rounds_of_const {r r' : Result Unit × Ingress}
    (h : ∀ fuel, rounds n (fuel + 1) s = some r') (hne : r'.1 ≠ .error .divergence) :
    (∃ fuel, rounds n fuel s = some r) ↔ r' = r ∧ r.1 ≠ .error .divergence := by
  rw [exists_rounds_succ]
  constructor
  · rintro ⟨fuel, hfuel⟩
    rw [h fuel] at hfuel
    cases hfuel
    exact ⟨rfl, hne⟩
  · rintro ⟨rfl, -⟩
    exact ⟨0, h 0⟩

/-- Without a window no number of rounds is enough. -/
theorem rounds_of_no_room : ∀ {fuel : ℕ} {s : Ingress}, s.cache.size < n →
    s.cache.available.size = 0 → rounds n fuel s = none := by
  intro fuel
  induction fuel with
  | zero =>
      intro s _ _
      rfl
  | succ fuel ih =>
      intro s hlt hzero
      have hread : s.underlying.readSome s.cache.available.size = some ([], s.underlying) := by
        rw [hzero]
        rfl
      rw [rounds_succ_of_lt fuel hlt, hread]
      apply ih
      · show (s.cache.last + min 0 (capacity - s.cache.last)) - s.cache.first - s.cache.taken < n
        rw [Nat.zero_min, Nat.add_zero]
        exact hlt
      · show (s.cache.available.advance _).size = 0
        simp only [Window.advance, hzero]
        split <;> omega

/-- **The loop comes to an end exactly where the model does not report a divergence.** -/
theorem exists_rounds_iff {r : Result Unit × Ingress} :
    (∃ fuel, rounds n fuel s = some r) ↔ readFrom n s = r ∧ r.1 ≠ .error .divergence := by
  -- by induction on what is still to come: every round with a window takes some of it
  suffices key : ∀ k (s : Ingress), s.underlying.all.length < k →
      ((∃ fuel, rounds n fuel s = some r) ↔ readFrom n s = r ∧ r.1 ≠ .error .divergence) from
    key _ s (Nat.lt_succ_self _)
  intro k
  induction k with
  | zero =>
      intro s h
      omega
  | succ k ih =>
      intro s hk
      by_cases hle : n ≤ s.cache.size
      · rw [readFrom_of_le hle]
        refine exists_rounds_of_const (fun fuel => ?_) (by simp)
        rw [rounds, if_pos hle]
      · have hlt : s.cache.size < n := by omega
        by_cases hzero : s.cache.available.size = 0
        · rw [readFrom_of_no_room hlt hzero]
          constructor
          · rintro ⟨fuel, h⟩
            rw [rounds_of_no_room hlt hzero] at h
            cases h
          · rintro ⟨rfl, h⟩
            exact absurd rfl h
        · have hroom := Nat.pos_of_ne_zero hzero
          rcases hread : s.underlying.readSome s.cache.available.size with _ | ⟨got, underlying⟩
          · rw [readFrom_of_eof hlt hroom hread]
            refine exists_rounds_of_const (fun fuel => ?_) (by simp [eof])
            rw [rounds_succ_of_lt fuel hlt, hread]
          · obtain ⟨hne, -, hall⟩ := Source.readSome_spec hroom hread
            have hpos := List.length_pos_of_ne_nil hne
            rw [hall, List.length_append] at hk
            rw [readFrom_eq_after hlt hroom hread,
              ← ih (s.after got underlying) (show underlying.all.length < k by omega),
              exists_rounds_succ]
            apply exists_congr
            intro fuel
            rw [rounds_succ_of_lt fuel hlt, hread]

end Rounds

/-! ## The window used up -/

/-- The reads that use up the window.  So far `last` bytes were read, and the window starts at
`offset`; each read returns what the stream has for the window, and moves the window by all
bytes read so far. -/
def UsesUp : ℕ → ℕ → Source UInt8 → List Bytes → Prop
  | _, offset, _, [] => offset = capacity
  | last, offset, src, got :: reads =>
    offset < capacity ∧ ∃ underlying, src.readSome (capacity - offset) = some (got, underlying)
      ∧ UsesUp (last + got.length) (min capacity (offset + (last + got.length))) underlying reads

/-- What the memory holds after some reads, each of which went to the window of its time. -/
def filled : Memory → ℕ → ℕ → List Bytes → Memory
  | memory, _, _, [] => memory
  | memory, last, offset, got :: reads =>
    filled (store memory offset got) (last + got.length)
      (min capacity (offset + (last + got.length))) reads

/-- The bytes that are committed after some reads: as many as were read, from the start of the
memory on. -/
def committed (memory : Memory) (reads : List Bytes) : Bytes :=
  load (filled memory 0 0 reads) 0 reads.flatten.length

/-- The window is used up by reads that do not decide about the request: the first of them
starts as a request does, and what is committed after the last of them is too short for it. -/
def Starves (p : Platform) (passwords : List Bytes) (memory : Memory) (src : Source UInt8) :
    Prop :=
  ∃ got reads, UsesUp 0 0 src (got :: reads) ∧ Greets passwords got
    ∧ (command p).starves ((committed memory (got :: reads)).drop 58) = true

/-- What is in front of the window stays. -/
theorem filled_of_lt (reads : List Bytes) : ∀ {memory : Memory} {last offset i : ℕ},
    i < offset → i < capacity → filled memory last offset reads i = memory i := by
  induction reads with
  | nil =>
      intro memory last offset i _ _
      rfl
  | cons got reads ih =>
      intro memory last offset i hi hcap
      rw [filled, ih (by omega) hcap, store_of_not_mem (Or.inl hi)]

/-! ## Programs that read from the cache -/

/-- No failure of the program itself is a divergence. -/
def Sound {α : Type} : Reader UInt8 Fault α → Prop
  | .ret _ => True
  | .fail f => f ≠ .divergence
  | .read _ k => ∀ w, Sound (k w)

section Run

variable {α : Type} {s : Ingress} {last offset : ℕ}

/-- The bytes behind the first `t`, when the reads to come were made. -/
def ahead (s : Ingress) (last offset t : ℕ) (reads : List Bytes) : Bytes :=
  load (filled s.cache.memory last offset reads) t (last + reads.flatten.length - t)

/-- The reads to come do not touch what is committed. -/
theorem take_ahead (hle : last ≤ offset) (hcap : last ≤ capacity) {t n : ℕ} (htn : t + n ≤ last)
    (reads : List Bytes) :
    (ahead s last offset t reads).take n = load s.cache.memory t n
      ∧ (ahead s last offset t reads).drop n = ahead s last offset (t + n) reads := by
  rw [ahead, take_load (by omega), drop_load (by omega), ahead]
  refine ⟨load_congr fun i _ hi => filled_of_lt reads (by omega) (by omega), ?_⟩
  congr 1
  omega

theorem ahead_cons (got : Bytes) (u : Source UInt8) (t : ℕ) (reads : List Bytes)
    (hat : At last offset s) :
    ahead s last offset t (got :: reads)
      = ahead (s.after got u) (last + got.length) (min capacity (offset + (last + got.length))) t
        reads := by
  have hmemory : (s.after got u).cache.memory = store s.cache.memory offset got := by
    show store s.cache.memory s.cache.available.offset got = _
    rw [hat.offset_eq]
  rw [ahead, ahead, hmemory, filled, List.flatten_cons, List.length_append, Nat.add_assoc]

/-- What one read more leaves to ask. -/
theorem exists_usesUp_iff {P : Bytes → Prop} {got : Bytes} {u : Source UInt8} {t : ℕ}
    (hat : At last offset s) (hlt : offset < capacity)
    (hread : s.underlying.readSome (capacity - offset) = some (got, u)) :
    (∃ reads, UsesUp last offset s.underlying reads ∧ P (ahead s last offset t reads)) ↔
      ∃ reads, UsesUp (last + got.length) (min capacity (offset + (last + got.length))) u reads
        ∧ P (ahead (s.after got u) (last + got.length)
          (min capacity (offset + (last + got.length))) t reads) := by
  constructor
  · rintro ⟨reads, huses, hP⟩
    cases reads with
    | nil => exact absurd huses (by rw [UsesUp]; omega)
    | cons got' reads =>
        obtain ⟨-, u', hread', huses⟩ := huses
        rw [hread] at hread'
        cases hread'
        rw [ahead_cons got u t reads hat] at hP
        exact ⟨reads, huses, hP⟩
  · rintro ⟨reads, huses, hP⟩
    refine ⟨got :: reads, ⟨hlt, u, hread, huses⟩, ?_⟩
    rw [ahead_cons got u t reads hat]
    exact hP

/-- A stream that ends does not use up the window. -/
theorem not_usesUp_of_eof {src : Source UInt8} (hlt : offset < capacity)
    (hread : src.readSome (capacity - offset) = none) (reads : List Bytes) :
    ¬UsesUp last offset src reads := by
  intro huses
  cases reads with
  | nil => exact absurd huses (by rw [UsesUp]; omega)
  | cons got reads =>
      obtain ⟨-, u, hsome, -⟩ := huses
      rw [hread] at hsome
      cases hsome

section Request

variable {n t : ℕ} {k : Bytes → Reader UInt8 Fault α}

/-- A request that is met by what is committed. -/
theorem starves_ahead_of_le (hle : last ≤ offset) (hcap : last ≤ capacity) (hn : t + n ≤ last)
    (reads : List Bytes) :
    (Reader.read n k).starves (ahead s last offset t reads)
      = (k (load s.cache.memory t n)).starves (ahead (s.mark n) last offset (t + n) reads) := by
  obtain ⟨htake, hdrop⟩ := take_ahead (s := s) hle hcap hn reads
  have hlength : ¬(ahead s last offset t reads).length < n := by
    rw [ahead, length_load]
    omega
  rw [Reader.starves, decide_eq_false hlength, Bool.false_or, htake, hdrop]
  rfl

/-- A request that is not met when there is no window left. -/
theorem run_diverges_of_full (hat : At last offset s) (htaken : s.cache.taken = t)
    (hn : last < t + n) (htlast : t ≤ last) (hfull : offset = capacity) :
    ((Reader.read n k).run (fun s n => demand n s) s).1 = .error .divergence
      ∧ ∃ reads, UsesUp last offset s.underlying reads
        ∧ (Reader.read n k).starves (ahead s last offset t reads) = true := by
  have hroom := hat.room
  have hsize : s.cache.size = last - t := by rw [hat.size, htaken]
  have hread := readFrom_of_no_room (show s.cache.size < n by omega)
    (show s.cache.available.size = 0 by omega)
  have hlength : (ahead s last offset t []).length < n := by
    rw [ahead, length_load, List.flatten_nil, List.length_nil]
    omega
  constructor
  · rw [Reader.run, demand_of_error hread]
  · refine ⟨[], hfull, ?_⟩
    rw [Reader.starves, decide_eq_true hlength, Bool.true_or]

/-- A request that is not met when the stream ends. -/
theorem run_ne_divergence_of_eof (hlt : s.cache.size < n) (hroom : 0 < s.cache.available.size)
    (hread : s.underlying.readSome s.cache.available.size = none) :
    ((Reader.read n k).run (fun s n => demand n s) s).1 ≠ .error .divergence := by
  rw [Reader.run, demand_of_error (readFrom_of_eof hlt hroom hread)]
  simp [eof]

/-- A request that is not met yet is made again after one read more. -/
theorem run_eq_after {got : Bytes} {u : Source UInt8} (hlt : s.cache.size < n)
    (hroom : 0 < s.cache.available.size)
    (hread : s.underlying.readSome s.cache.available.size = some (got, u)) :
    (Reader.read n k).run (fun s n => demand n s) s
      = (Reader.read n k).run (fun s n => demand n s) (s.after got u) := by
  have hstep : demand n s = demand n (s.after got u) :=
    demand_congr (readFrom_eq_after hlt hroom hread)
  rw [Reader.run, Reader.run, hstep]

end Request

/-- A program that diverges exactly when reads use up the window and leave it without the bytes
it asks for. -/
def DivergesUsedUp (x : Reader UInt8 Fault α) : Prop :=
  ∀ {s : Ingress} {last offset t : ℕ}, At last offset s → last ≤ offset →
    s.cache.taken = t → 0 < t → t ≤ last →
    ((x.run (fun s n => demand n s) s).1 = .error .divergence ↔
      ∃ reads, UsesUp last offset s.underlying reads
        ∧ x.starves (ahead s last offset t reads) = true)

/-- Behind a request that is met the program goes on as the rest of it does. -/
theorem diverges_iff_of_met {n : ℕ} {k : Bytes → Reader UInt8 Fault α}
    (ih : ∀ w, DivergesUsedUp (k w)) {s : Ingress} {last offset t : ℕ} (hat : At last offset s)
    (hle : last ≤ offset) (htaken : s.cache.taken = t) (hpos : 0 < t) (hn : t + n ≤ last) :
    ((Reader.read n k).run (fun s n => demand n s) s).1 = .error .divergence ↔
      ∃ reads, UsesUp last offset s.underlying reads
        ∧ (Reader.read n k).starves (ahead s last offset t reads) = true := by
  have hroom := hat.room
  have hsize : s.cache.size = last - t := by rw [hat.size, htaken]
  have hread : readFrom n s = (.ok (), s) := readFrom_of_le (by omega)
  have hdemand : demand n s = (.ok (load s.cache.memory t n), s.mark n) := by
    rw [demand_of_ok hread (by omega), hat.first_eq, htaken, Nat.zero_add]
  rw [Reader.run_read_of_ok hdemand, ih _ (hat.mark n) hle (t := t + n)
    (by rw [taken_mark, htaken]) (by omega) hn]
  apply exists_congr
  intro reads
  rw [starves_ahead_of_le hle (by omega) hn]
  rfl

/-- A request, by induction on what is still to come: it is met, or it finds the window used up,
or it finds the end of the stream, or it is made again after one read more. -/
theorem diverges_read {n : ℕ} {k : Bytes → Reader UInt8 Fault α}
    (ih : ∀ w, DivergesUsedUp (k w)) : DivergesUsedUp (Reader.read n k) := by
  suffices key : ∀ m (s : Ingress) (last offset t : ℕ), s.underlying.all.length < m →
      At last offset s → last ≤ offset → s.cache.taken = t → 0 < t → t ≤ last →
      (((Reader.read n k).run (fun s n => demand n s) s).1 = .error .divergence ↔
        ∃ reads, UsesUp last offset s.underlying reads
          ∧ (Reader.read n k).starves (ahead s last offset t reads) = true) from
    fun {s last offset t} => key _ s last offset t (Nat.lt_succ_self _)
  intro m
  induction m with
  | zero =>
      intro s last offset t h
      omega
  | succ m ihm =>
      intro s last offset t hm hat hle htaken hpos htlast
      have hroom := hat.room
      have hsize : s.cache.size = last - t := by rw [hat.size, htaken]
      by_cases hn : t + n ≤ last
      · exact diverges_iff_of_met ih hat hle htaken hpos hn
      · have hlt : s.cache.size < n := by omega
        by_cases hfull : offset = capacity
        · have hshort : last < t + n := by omega
          obtain ⟨hrun, hreads⟩ := run_diverges_of_full (k := k) hat htaken hshort htlast hfull
          exact iff_of_true hrun hreads
        · have hwindow : s.cache.available.size = capacity - offset := by omega
          have hpositive : 0 < s.cache.available.size := by omega
          rcases hread : s.underlying.readSome (capacity - offset) with _ | ⟨got, u⟩
          · refine iff_of_false ?_ ?_
            · exact run_ne_divergence_of_eof hlt hpositive (by rw [hwindow]; exact hread)
            · rintro ⟨reads, huses, -⟩
              exact not_usesUp_of_eof (by omega) hread reads huses
          · obtain ⟨hne, hgot, hall⟩ := Source.readSome_spec (by omega) hread
            have hlength := List.length_pos_of_ne_nil hne
            rw [hall, List.length_append] at hm
            have hfewer : u.all.length < m := by omega
            rw [run_eq_after hlt hpositive (by rw [hwindow]; exact hread),
              ihm (s.after got u) _ _ t hfewer (hat.after hle (by omega)) (by omega) htaken
                hpos (by omega)]
            exact (exists_usesUp_iff (P := fun w => (Reader.read n k).starves w = true) hat
              (by omega) hread).symm

/-- **A program diverges exactly when reads use up the window and leave it without the bytes
it asks for.** -/
theorem run_diverges_iff (x : Reader UInt8 Fault α) (hsound : Sound x) : DivergesUsedUp x := by
  induction x with
  | ret a =>
      intro s last offset t _ _ _ _ _
      simp [Reader.run, Reader.starves]
  | fail f =>
      intro s last offset t _ _ _ _ _
      simpa [Sound, Reader.run, Reader.starves] using hsound
  | read n k ih => exact diverges_read fun w => ih w (hsound w)

end Run

/-! ## The request -/

section Request

variable {p : Platform} {s : Ingress} {memory : Memory}

theorem sound_command (p : Platform) : Sound (command p) := by
  have hfail : Sound (.fail badProto : Reader UInt8 Fault Endpoint) := by
    show badProto ≠ .divergence
    simp [badProto]
  have hclosing : ∀ e, Sound (closing e) := by
    intro e w
    show Sound (if w = crlf then .ret e else .fail badProto)
    split
    · trivial
    · exact hfail
  rw [command_eq_read]
  intro w
  show Sound (if w = [1] then .read 1 (afterType p) else .fail badProto)
  split
  · intro tag
    rw [afterType]
    simp only
    split
    · exact fun w => hclosing _
    · split
      · intro w
        rw [afterLength]
        simp only
        split
        · exact fun w => hclosing _
        · exact hfail
      · split
        · exact fun w => hclosing _
        · exact hfail
  · exact hfail

/-- The first read of a request. -/
theorem readFrom_one_of_make (hcache : s.cache = Cache.make memory) {got : Bytes}
    {u : Source UInt8} (hread : s.underlying.readSome capacity = some (got, u)) :
    readFrom 1 s = (.ok (), s.after got u) := by
  have hat := at_of_make hcache
  have hroom := hat.room
  have hwindow : s.cache.available.size = capacity := by omega
  have htaken : (s.after got u).cache.taken = 0 := by
    show s.cache.taken = 0
    rw [hcache]
    rfl
  obtain ⟨hne, hgot, -⟩ := Source.readSome_spec (by decide) hread
  have hlength := List.length_pos_of_ne_nil hne
  have hat' := hat.after (u := u) (Nat.le_refl 0) (show got.length ≤ _ by omega)
  rw [readFrom_eq_after (by rw [hat.size]; omega) (by rw [hwindow]; decide)
    (by rw [hwindow]; exact hread)]
  apply readFrom_of_le
  rw [hat'.size, htaken]
  omega

/-- What starves is decided from the first read on. -/
theorem starves_iff_of_read {passwords : List Bytes} {src u : Source UInt8} {got : Bytes}
    (hread : src.readSome capacity = some (got, u)) :
    Starves p passwords memory src ↔ Greets passwords got
      ∧ ∃ reads, UsesUp (0 + got.length) (min capacity (0 + (0 + got.length))) u reads
        ∧ (command p).starves ((committed memory (got :: reads)).drop 58) = true := by
  constructor
  · rintro ⟨got', reads, ⟨-, u', hread', huses⟩, hgreets, hstarves⟩
    rw [Nat.sub_zero, hread] at hread'
    cases hread'
    exact ⟨hgreets, reads, huses, hstarves⟩
  · rintro ⟨hgreets, reads, huses, hstarves⟩
    exact ⟨got, reads, ⟨by decide, u, hread, huses⟩, hgreets, hstarves⟩

/-- What is committed behind the greeting. -/
theorem drop_committed (hcache : s.cache = Cache.make memory) (got : Bytes) (u : Source UInt8)
    (reads : List Bytes) {n : ℕ} (hn : n ≤ got.length) :
    (committed memory (got :: reads)).drop n
      = ahead ((s.after got u).mark n) (0 + got.length) (min capacity (0 + (0 + got.length))) n
        reads := by
  have hcells : ((s.after got u).mark n).cache.memory = store memory 0 got := by
    show store s.cache.memory s.cache.available.offset got = _
    rw [hcache]
    rfl
  rw [committed, filled, List.flatten_cons, List.length_append, drop_load (by omega),
    Nat.zero_add, ahead, hcells, Nat.zero_add, Nat.zero_add]

/-- The request diverges exactly when the window is used up too early. -/
theorem parseRequest_diverges_iff (p : Platform) (hcache : s.cache = Cache.make memory) :
    (parseRequest p s).1 = .error .divergence
      ↔ Starves p s.passwords memory s.underlying := by
  have hat := at_of_make hcache
  have htaken : s.cache.taken = 0 := by
    rw [hcache]
    rfl
  have hroom := hat.room
  have hwindow : s.cache.available.size = capacity := by omega
  rcases hread : s.underlying.readSome capacity with _ | ⟨got, u⟩
  · have heof : readFrom 1 s = (.error eof, s) := by
      refine readFrom_of_eof (by rw [hat.size]; omega) (by rw [hwindow]; decide) ?_
      rw [hwindow, hread]
    rw [parseRequest_of_error p heof]
    refine iff_of_false (by simp [eof]) ?_
    rintro ⟨got, reads, huses, -⟩
    exact not_usesUp_of_eof (show 0 < capacity by decide) hread _ huses
  · obtain ⟨hne, hgot, -⟩ := Source.readSome_spec (by decide) hread
    have hat' := hat.after (u := u) (Nat.le_refl 0) (show got.length ≤ _ by omega)
    have hlast : (s.after got u).cache.last = got.length := by
      rw [hat'.last_eq, Nat.zero_add]
    have hload : load (s.after got u).cache.memory 0 got.length = got := by
      show load (store s.cache.memory s.cache.available.offset got) 0 got.length = got
      rw [hat.offset_eq, load_store_self]
    obtain ⟨hgreets, hfails⟩ := parseRequest_of_readFrom p (readFrom_one_of_make hcache hread)
      hat'.first_eq htaken
    rw [hlast, hload] at hgreets hfails
    rw [starves_iff_of_read hread]
    by_cases hg : Greets s.passwords got
    · have hlong := hg.1
      rw [hgreets hg, run_diverges_iff (command p) (sound_command p) (hat'.mark 58) (by omega)
        (t := 58) (by rw [taken_mark, show (s.after got u).cache.taken = 0 from htaken])
        (by omega) (by omega)]
      refine Iff.trans (exists_congr fun reads => ?_) (and_iff_right hg).symm
      rw [drop_committed hcache got u reads hlong]
      rfl
    · obtain ⟨x, n, -, herror⟩ := hfails hg
      rw [herror]
      exact iff_of_false (by simp) fun h => hg h.1

/-- `read_remote` passes a divergence on, and has none of its own. -/
theorem readRemote_diverges_iff :
    (readRemote p (.ok ()) s).1 = .error .divergence
      ↔ (parseRequest p s).1 = .error .divergence := by
  rcases hparse : parseRequest p s with ⟨f | e, s₁⟩
  · rw [readRemote_of_error hparse]
    cases f with
    | thrown x =>
        cases hflag : s₁.fallback <;> simp [giveUp, hflag]
    | undefinedBehaviour => simp [giveUp]
    | divergence => simp [giveUp]
  · rw [readRemote_of_ok hparse]

end Request

/-- Every call of `read_from` that `read_remote` makes comes to an end. -/
def Finishes (p : Platform) (s : Ingress) : Prop :=
  (readRemote p (.ok ()) s).1 ≠ .error .divergence

/-- **When `read_from` comes to an end.**  For all passwords, all contents of the memory of
the cache and all streams in any segmentation: unless the window is used up by reads of which
the first starts as a request does, and which leave the request undecided. -/
theorem finishes_iff (p : Platform) (sha224 : Bytes → Digest) (cred : TrojanIngressCredential)
    (opt : TrojanOption) (fallback : Bool) (memory : Memory) (src : Source UInt8) :
    Finishes p (make sha224 cred opt fallback memory src)
      ↔ ¬Starves p (cred.credential.keys.map fun pw => (sha224 pw).1) memory src := by
  have hcache : (make sha224 cred opt fallback memory src).cache = Cache.make memory := rfl
  rw [Finishes, ne_eq, readRemote_diverges_iff, parseRequest_diverges_iff p hcache]
  rfl

/-- A request for a name of 255 bytes. -/
def Example.longRequest : Bytes :=
  request Example.hash (3 :: 255 :: (List.replicate 255 97 ++ [1, 187]))

/-- A request of 320 bytes in pieces of 200, 112 and 8 bytes: the first two use up the window,
and the third is never read. -/
theorem finishes_counterexample :
    ∃ src : Source UInt8,
      src.pieces = [Example.longRequest.take 200, (Example.longRequest.drop 200).take 112,
        Example.longRequest.drop 312]
      ∧ src.all = Example.longRequest
      ∧ ¬Finishes Reference.platform (Example.ingress (fun _ => 0) src) := by
  refine ⟨⟨[Example.longRequest.take 200, (Example.longRequest.drop 200).take 112,
    Example.longRequest.drop 312], by decide⟩, rfl, by decide +kernel, fun h => h ?_⟩
  decide +kernel

end Ingress

end Trojan

end Pichi
