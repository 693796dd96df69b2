/-
# The third read of the Trojan ingress

From the third read on, what is read into the cache is written behind the bytes that are
committed for it.  The cell after the bytes of the first two reads is committed without having
been written, and is handed to the fallback with what it held.

**Main result** (`transparent_iff`): for every stream on which `read_remote` gives up, the
fallback sees the bytes of the client, whatever the cache held at first, if and only if there
is no third read to make.

For a stream with a third read, memory is chosen such that the parser gives up and the stale
byte differs from the one the client sent.  What the parser does next depends on what it was
waiting for (`stuck_command`): at the type of the endpoint or the length of a name a stale byte
makes it fail at once or soon after; behind them it looks at the end of the request only, and
memory that holds no byte of an end of line fails wherever other memory does
(`Reader.Follows`).
-/
import Pichi.TrojanFallback

namespace Pichi

open Transfer

namespace Trojan

namespace Ingress

/-! ## The loop of reads -/

/-- The ingress after a read. -/
def after (got : Bytes) (underlying : Source UInt8) (s : Ingress) : Ingress :=
  { s with underlying := underlying, cache := s.cache.commit got }

section Loop

variable {s s' : Ingress} {n : ℕ} {got : Bytes} {underlying : Source UInt8}

theorem readFromLoop_fuel {fuel : ℕ} : ∀ {fuel' : ℕ} {s : Ingress},
    s.underlying.all.length < fuel → s.underlying.all.length < fuel' →
      readFromLoop n fuel s = readFromLoop n fuel' s := by
  induction fuel with
  | zero =>
      intro fuel' s h
      omega
  | succ fuel ih =>
      intro fuel' s h h'
      obtain ⟨fuel', rfl⟩ := Nat.exists_eq_succ_of_ne_zero (show fuel' ≠ 0 by omega)
      rw [readFromLoop, readFromLoop]
      split
      · rfl
      · split
        · rfl
        · rename_i hroom
          rcases hread : s.underlying.readSome s.cache.available.size with _ | ⟨got, underlying⟩
          · rfl
          · obtain ⟨hne, -, hall⟩ := Source.readSome_spec (Nat.pos_of_ne_zero hroom) hread
            have hpos := List.length_pos_of_ne_nil hne
            rw [hall, List.length_append] at h h'
            exact ih (show underlying.all.length < fuel by omega)
              (show underlying.all.length < fuel' by omega)

/-- A demand that is not met yet reads. -/
theorem readFrom_eq_after (hlt : s.cache.size < n) (hroom : 0 < s.cache.available.size)
    (hread : s.underlying.readSome s.cache.available.size = some (got, underlying)) :
    readFrom n s = readFrom n (s.after got underlying) := by
  obtain ⟨hne, -, hall⟩ := Source.readSome_spec hroom hread
  have hpos := List.length_pos_of_ne_nil hne
  rw [readFrom, readFromLoop, if_neg (by omega), if_neg (by omega), hread]
  refine readFromLoop_fuel ?_ (Nat.lt_succ_self _)
  show underlying.all.length < s.underlying.all.length
  rw [hall, List.length_append]
  omega

theorem readFrom_of_no_room (hlt : s.cache.size < n) (hzero : s.cache.available.size = 0) :
    readFrom n s = (.error .divergence, s) := by
  rw [readFrom, readFromLoop, if_neg (by omega), if_pos hzero]

theorem readFrom_of_eof (hlt : s.cache.size < n) (hroom : 0 < s.cache.available.size)
    (hread : s.underlying.readSome s.cache.available.size = none) :
    readFrom n s = (.error eof, s) := by
  rw [readFrom, readFromLoop, if_neg (by omega), if_neg (by omega), hread]

/-- A demand fails at the end of the stream, or when there is no room left for it. -/
theorem error_of_readFrom {f : Fault} (h : readFrom n s = (.error f, s')) :
    f = eof ∨ s'.cache.available.size = 0 ∧ s'.cache.size < n := by
  have hloop : ∀ fuel s, s.underlying.all.length < fuel →
      readFromLoop n fuel s = (.error f, s') →
        f = eof ∨ s'.cache.available.size = 0 ∧ s'.cache.size < n := by
    intro fuel
    induction fuel with
    | zero =>
        intro s hfuel
        omega
    | succ fuel ih =>
        intro s hfuel h
        rw [readFromLoop] at h
        split at h
        · cases h
        · split at h
          · rename_i hsize hroom
            cases h
            exact Or.inr ⟨hroom, by omega⟩
          · rename_i hroom
            rcases hread : s.underlying.readSome s.cache.available.size with _ | ⟨got, underlying⟩
            · rw [hread] at h
              cases h
              exact Or.inl rfl
            · obtain ⟨hne, -, hall⟩ := Source.readSome_spec (Nat.pos_of_ne_zero hroom) hread
              have hpos := List.length_pos_of_ne_nil hne
              rw [hread] at h
              rw [hall, List.length_append] at hfuel
              exact ih _ (show underlying.all.length < fuel by omega) h
  exact hloop _ s (Nat.lt_succ_self _) h

end Loop

/-! ## Two reads in place -/

/-- Where the cursors of the cache are. -/
structure At (last offset : ℕ) (s : Ingress) : Prop where
  first_eq : s.cache.first = 0
  last_eq : s.cache.last = last
  offset_eq : s.cache.available.offset = offset
  room : offset + s.cache.available.size = capacity

section At

variable {s : Ingress} {last offset n : ℕ} {got : Bytes} {u : Source UInt8}

theorem at_of_make {memory : Memory} (hcache : s.cache = Cache.make memory) : At 0 0 s :=
  ⟨by rw [hcache]; rfl, by rw [hcache]; rfl, by rw [hcache]; rfl, by rw [hcache]; rfl⟩

/-- The window is advanced by everything that is committed. -/
theorem At.after (h : At last offset s) (hle : last ≤ offset)
    (hgot : got.length ≤ s.cache.available.size) :
    At (last + got.length) (min capacity (offset + (last + got.length))) (s.after got u) := by
  obtain ⟨hfirst, hlast, hoffset, hroom⟩ := h
  have hlast' : (s.after got u).cache.last = last + got.length := by
    show s.cache.last + min got.length (capacity - s.cache.last) = _
    omega
  have havailable : (s.after got u).cache.available
      = s.cache.available.advance (last + got.length) := by
    rw [← hlast', ← Nat.sub_zero (s.after got u).cache.last, ← hfirst]
    rfl
  refine ⟨hfirst, hlast', ?_, ?_⟩
  · rw [havailable]
    simp only [Window.advance]
    omega
  · rw [havailable]
    simp only [Window.advance]
    split <;> omega

theorem At.mark (h : At last offset s) (n : ℕ) : At last offset (s.mark n) :=
  ⟨h.first_eq, h.last_eq, h.offset_eq, h.room⟩

theorem At.size (h : At last offset s) : s.cache.size = last - s.cache.taken := by
  rw [Cache.size, h.first_eq, h.last_eq, Nat.sub_zero]

theorem mark_mark (m n : ℕ) : (s.mark m).mark n = s.mark (m + n) := by
  simp only [mark, Nat.add_assoc]

/-- What a demand takes. -/
theorem demand_marked {s' : Ingress} {t : ℕ} (hread : readFrom n s' = (.ok (), s.mark t))
    (hfirst : s.cache.first = 0) (htaken : s.cache.taken = 0) (hpos : 0 < t) :
    demand n s' = (.ok (load s.cache.memory t n), s.mark (t + n)) := by
  have htaken' := taken_readFrom n s'
  rw [hread, taken_mark, htaken, Nat.zero_add] at htaken'
  rw [demand_of_ok hread (by omega), mark_mark, taken_mark, htaken, Nat.zero_add,
    show (s.mark t).cache.first = 0 from hfirst, Nat.zero_add]
  rfl

theorem demand_congr {s' : Ingress} (h : readFrom n s = readFrom n s') :
    demand n s = demand n s' := by
  rw [demand, bind_of_eq h]

end At

/-- The first two pieces as the cache reads them. -/
structure Begins (src : Source UInt8) (piece second : Bytes) (u₁ u₂ : Source UInt8) : Prop where
  readFirst : src.readSome capacity = some (piece, u₁)
  readSecond : u₁.readSome (capacity - piece.length) = some (second, u₂)
  fits : piece.length + second.length < capacity

/-- The bytes of the first two pieces behind the first `t`, in a state that has taken these
and may or may not have read the second piece. -/
def Between (s : Ingress) (piece second : Bytes) (u₁ u₂ : Source UInt8) (s' : Ingress)
    (w : Bytes) : Prop :=
  ∃ t, 0 < t ∧ t + w.length = piece.length + second.length ∧ (piece ++ second).drop t = w
    ∧ (t ≤ piece.length ∧ s' = (s.after piece u₁).mark t
      ∨ s' = ((s.after piece u₁).after second u₂).mark t)

section Begins

variable {s : Ingress} {memory : Memory} {piece second : Bytes} {u₁ u₂ : Source UInt8}

/-- After the first read. -/
theorem Begins.once (hcache : s.cache = Cache.make memory)
    (h : Begins s.underlying piece second u₁ u₂) :
    At piece.length piece.length (s.after piece u₁) ∧ (s.after piece u₁).cache.taken = 0
      ∧ load (s.after piece u₁).cache.memory 0 piece.length = piece
      ∧ (s.after piece u₁).cache.memory = store memory 0 piece := by
  have hfits := h.fits
  have hstart := at_of_make hcache
  have hat : At (0 + piece.length) (min capacity (0 + (0 + piece.length))) (s.after piece u₁) :=
    hstart.after (Nat.le_refl 0) (by have hroom := hstart.room; omega)
  rw [Nat.zero_add, Nat.zero_add, Nat.min_eq_right (by omega)] at hat
  have hmemory : (s.after piece u₁).cache.memory = store memory 0 piece := by
    show store s.cache.memory s.cache.available.offset piece = _
    rw [hstart.offset_eq, hcache]
    rfl
  refine ⟨hat, ?_, ?_, hmemory⟩
  · show s.cache.taken = 0
    rw [hcache]
    rfl
  · rw [hmemory, load_store_self]

/-- After the second read. -/
theorem Begins.twice (hcache : s.cache = Cache.make memory)
    (h : Begins s.underlying piece second u₁ u₂) :
    At (piece.length + second.length)
        (min capacity (piece.length + (piece.length + second.length)))
        ((s.after piece u₁).after second u₂)
      ∧ ((s.after piece u₁).after second u₂).cache.taken = 0
      ∧ load ((s.after piece u₁).after second u₂).cache.memory 0 (piece.length + second.length)
        = piece ++ second
      ∧ ((s.after piece u₁).after second u₂).cache.memory
        = store (store memory 0 piece) piece.length second := by
  have hfits := h.fits
  obtain ⟨hat, htaken, hload, hmemory⟩ := h.once hcache
  have hat' : At (piece.length + second.length)
      (min capacity (piece.length + (piece.length + second.length)))
      ((s.after piece u₁).after second u₂) :=
    hat.after (le_refl _) (by have hroom := hat.room; omega)
  have hmemory' : ((s.after piece u₁).after second u₂).cache.memory
      = store (store memory 0 piece) piece.length second := by
    show store (s.after piece u₁).cache.memory (s.after piece u₁).cache.available.offset second = _
    rw [hat.offset_eq, hmemory]
  refine ⟨hat', htaken, ?_, hmemory'⟩
  rw [hmemory', load_add, Nat.zero_add, load_store_self,
    load_congr fun i _ hi => store_of_not_mem (Or.inl (by omega)), ← hmemory, hload]

/-- A demand that the first piece does not meet reads the second one. -/
theorem Begins.readFrom_once (hcache : s.cache = Cache.make memory)
    (h : Begins s.underlying piece second u₁ u₂) {n t : ℕ} (hlt : piece.length < t + n)
    (ht : t ≤ piece.length) :
    readFrom n ((s.after piece u₁).mark t)
      = readFrom n (((s.after piece u₁).after second u₂).mark t) := by
  have hfits := h.fits
  obtain ⟨hat, htaken, -, -⟩ := h.once hcache
  have hsize : (s.after piece u₁).cache.available.size = capacity - piece.length := by
    have hroom := hat.room
    omega
  have hread : u₁.readSome (s.after piece u₁).cache.available.size = some (second, u₂) := by
    rw [hsize]
    exact h.readSecond
  refine readFrom_eq_after ?_ ?_ hread
  · rw [size_mark, hat.size, htaken]
    omega
  · show 0 < (s.after piece u₁).cache.available.size
    omega

/-- Demands that the first two pieces meet. -/
theorem Begins.supplies (hcache : s.cache = Cache.make memory)
    (h : Begins s.underlying piece second u₁ u₂) :
    Reader.Supplies (fun s n => demand n s) (Between s piece second u₁ u₂) := by
  rintro s' w v ⟨t, hpos, hlen, hdrop, hstate⟩
  obtain ⟨hat, htaken, -, hmemory⟩ := h.once hcache
  obtain ⟨hat', htaken', hload', hmemory'⟩ := h.twice hcache
  rw [List.length_append] at hlen
  have hword : load ((s.after piece u₁).after second u₂).cache.memory t w.length = w := by
    have hsplit : piece.length + second.length = t + (w.length + v.length) := by omega
    rw [hsplit, load_add, load_add, Nat.zero_add] at hload'
    rw [← hload', List.drop_left' (length_load _ _ _)] at hdrop
    exact (List.append_inj hdrop (length_load _ _ _)).1
  have hdrop' : (piece ++ second).drop (t + w.length) = v := by
    rw [← List.drop_drop, hdrop, List.drop_left]
  have hbetween : ∀ s'', (t + w.length ≤ piece.length ∧ s'' = (s.after piece u₁).mark (t + w.length)
      ∨ s'' = ((s.after piece u₁).after second u₂).mark (t + w.length)) →
        Between s piece second u₁ u₂ s'' v :=
    fun s'' hs'' => ⟨t + w.length, by omega, by omega, hdrop', hs''⟩
  have hread' : readFrom w.length (((s.after piece u₁).after second u₂).mark t)
      = (.ok (), ((s.after piece u₁).after second u₂).mark t) := by
    apply readFrom_of_le
    rw [size_mark, hat'.size, htaken']
    omega
  rcases hstate with ⟨ht, rfl⟩ | rfl
  · by_cases hw : t + w.length ≤ piece.length
    · -- the first piece is enough
      have hread : readFrom w.length ((s.after piece u₁).mark t)
          = (.ok (), (s.after piece u₁).mark t) := by
        apply readFrom_of_le
        rw [size_mark, hat.size, htaken]
        omega
      have hword' : load (s.after piece u₁).cache.memory t w.length = w := by
        rw [hmemory', ← hmemory,
          load_congr fun i _ hi => store_of_not_mem (Or.inl (by omega))] at hword
        exact hword
      exact ⟨_, (demand_marked hread hat.first_eq htaken hpos).trans (by rw [hword']),
        hbetween _ (Or.inl ⟨hw, rfl⟩)⟩
    · rw [← h.readFrom_once hcache (by omega) ht] at hread'
      exact ⟨_, (demand_marked hread' hat'.first_eq htaken' hpos).trans (by rw [hword]),
        hbetween _ (Or.inr rfl)⟩
  · exact ⟨_, (demand_marked hread' hat'.first_eq htaken' hpos).trans (by rw [hword]),
      hbetween _ (Or.inr rfl)⟩

/-- **Up to the third read**: a request that the first two pieces do not decide waits for more,
and both of them have been read. -/
theorem Begins.parseRequest_of_stuck {p : Platform} (hcache : s.cache = Cache.make memory)
    (h : Begins s.underlying piece second u₁ u₂) (hgreets : Greets s.passwords piece) {n : ℕ}
    {k : Bytes → Reader UInt8 Fault Endpoint} {w : Bytes}
    (hstuck : (command p).Stuck (piece.drop 58 ++ second) n k w) :
    ∀ t, t + w.length = piece.length + second.length → 0 < t
      ∧ parseRequest p s = (Reader.read n k).run (fun s n => demand n s)
        (((s.after piece u₁).after second u₂).mark t) := by
  intro t ht
  have hlong := hgreets.1
  have hstart := at_of_make hcache
  obtain ⟨hat, htaken, hload, -⟩ := h.once hcache
  have hread : readFrom 1 s = (.ok (), s.after piece u₁) := by
    have hsize : s.cache.available.size = capacity := by
      have hroom := hstart.room
      omega
    rw [readFrom_eq_after (by rw [hstart.size]; omega) (by rw [hsize]; decide)
      (by rw [hsize]; exact h.readFirst)]
    apply readFrom_of_le
    rw [hat.size, htaken]
    omega
  have hparse := (parseRequest_of_readFrom p hread hat.first_eq htaken).1
    (by rw [hat.last_eq, hload]; exact hgreets)
  have hbetween : Between s piece second u₁ u₂ ((s.after piece u₁).mark 58)
      (piece.drop 58 ++ second) := by
    refine ⟨58, by omega, ?_, List.drop_append_of_le_length hlong, Or.inl ⟨hlong, rfl⟩⟩
    rw [List.length_append, List.length_drop]
    omega
  obtain ⟨s', hrun, t', hpos, hlen, -, hstate⟩ :=
    Reader.run_of_stuck (h.supplies hcache) hstuck hbetween
  have hshort := hstuck.length_lt
  obtain rfl : t' = t := by omega
  refine ⟨hpos, ?_⟩
  rw [hparse, hrun]
  rcases hstate with ⟨ht, rfl⟩ | rfl
  · rw [Reader.run, Reader.run,
      demand_congr (h.readFrom_once hcache (show piece.length < t' + n by omega) ht)]
  · rfl

end Begins

/-! ## What a request waits for -/

/-- The second word is the first one, with some of its bytes replaced by `v`. -/
def Blurs (v : UInt8) (w w' : Bytes) : Prop :=
  ∀ i : ℕ, w'[i]? = w[i]? ∨ w'[i]? = some v

/-- An exception, and not a loop without an end. -/
def IsThrown (f : Fault) : Prop := ∃ x, f = .thrown x

theorem isThrown_badProto : IsThrown badProto := ⟨_, rfl⟩

/-- Bytes that do not occur in a word do not make it. -/
theorem Blurs.eq_of_notMem {v : UInt8} {w w' x : Bytes} (h : Blurs v w w') (hv : v ∉ x)
    (hw : w' = x) : w = x := by
  subst hw
  apply List.ext_getElem?
  intro i
  rcases h i with heq | hstale
  · exact heq.symm
  · exact absurd (List.mem_of_getElem? hstale) hv

theorem follows_closing {v : UInt8} (hv : v ∉ crlf) (e e' : Endpoint) :
    Reader.Follows (Blurs v) IsThrown (closing e) (closing e') := by
  refine .read 2 fun w w' hw => ?_
  by_cases hw' : w' = crlf
  · rw [if_pos (hw.eq_of_notMem hv hw')]
    exact .ret _ _
  · rw [if_neg hw']
    split
    · exact .ret _ _
    · exact .fail fun h => h

/-- **What a request waits for** when the bytes behind the hash run out: the type of the
endpoint, the length of a name, or something it does not look at before the end of the
request. -/
theorem stuck_command {p : Platform} {w w' : Bytes} {n : ℕ}
    {k : Bytes → Reader UInt8 Fault Endpoint} (h : (command p).Stuck w n k w') (hne : w ≠ []) :
    (w.length = 1 ∧ w' = [] ∧ n = 1 ∧ k = afterType p)
      ∨ (w.length = 2 ∧ w' = [] ∧ n = 1 ∧ ∃ buf, k = afterLength buf)
      ∨ ∀ v, v ∉ crlf → Reader.Follows (Blurs v) IsThrown (.read n k) (.read n k) := by
  -- behind the control bytes a request waits for its payload or for its end
  have hpayload : ∀ {m : ℕ} {g : Bytes → Endpoint} {w : Bytes},
      (Reader.read m fun w => closing (g w)).Stuck w n k w' →
        ∀ v, v ∉ crlf → Reader.Follows (Blurs v) IsThrown (.read n k) (.read n k) := by
    intro m g w hstuck v hv
    cases hstuck with
    | here hlt => exact .read _ fun _ _ _ => follows_closing hv _ _
    | next _ hstuck =>
        cases hstuck with
        | here hlt => exact follows_closing hv _ _
        | next _ hstuck =>
            simp only at hstuck
            split at hstuck <;> cases hstuck
  rw [command_eq_read] at h
  cases h with
  | here hlt => exact absurd (List.eq_nil_of_length_eq_zero (by omega)) hne
  | next hv hstuck =>
      simp only at hstuck
      split at hstuck
      · cases hstuck with
        | here hlt =>
            left
            have hnil := List.eq_nil_of_length_eq_zero (Nat.lt_one_iff.mp hlt)
            exact ⟨by rw [hnil, List.append_nil, hv], hnil, rfl, rfl⟩
        | next hv' hstuck =>
            right
            rw [afterType] at hstuck
            simp only at hstuck
            split at hstuck
            · exact Or.inr (hpayload hstuck)
            · split at hstuck
              · cases hstuck with
                | here hlt =>
                    left
                    have hnil := List.eq_nil_of_length_eq_zero (Nat.lt_one_iff.mp hlt)
                    refine ⟨?_, hnil, rfl, _, rfl⟩
                    rw [hnil, List.append_nil, List.length_append, hv, hv']
                | next _ hstuck =>
                    rw [afterLength] at hstuck
                    simp only at hstuck
                    split at hstuck
                    · exact Or.inr (hpayload hstuck)
                    · cases hstuck
              · split at hstuck
                · exact Or.inr (hpayload hstuck)
                · cases hstuck
      · cases hstuck

/-! ## Other memory -/

/-- The ingress with other memory. -/
def withMemory (m : Memory) (s : Ingress) : Ingress :=
  { s with cache := { s.cache with memory := m } }

/-- The same ingress, except that some cells hold `v`. -/
def Stale (v : UInt8) (s s' : Ingress) : Prop :=
  ∃ m, s' = s.withMemory m ∧ ∀ i, m i = s.cache.memory i ∨ m i = v

section Stale

variable {v : UInt8} {s s' : Ingress} {n : ℕ}

theorem Stale.after (h : Stale v s s') (got : Bytes) (u : Source UInt8) :
    Stale v (s.after got u) (s'.after got u) := by
  obtain ⟨m, rfl, hm⟩ := h
  refine ⟨store m s.cache.available.offset got, rfl, fun i => ?_⟩
  show store m s.cache.available.offset got i = store s.cache.memory s.cache.available.offset got i
    ∨ store m s.cache.available.offset got i = v
  rw [store, store]
  split
  · exact Or.inl rfl
  · exact hm i

theorem Stale.mark (h : Stale v s s') (n : ℕ) : Stale v (s.mark n) (s'.mark n) := by
  obtain ⟨m, rfl, hm⟩ := h
  exact ⟨m, rfl, hm⟩

theorem Stale.readFromLoop (fuel : ℕ) : ∀ {s s'}, Stale v s s' →
    ∃ r t t', Ingress.readFromLoop n fuel s = (r, t) ∧ Ingress.readFromLoop n fuel s' = (r, t')
      ∧ Stale v t t' := by
  induction fuel with
  | zero => exact fun {s s'} h => ⟨_, s, s', rfl, rfl, h⟩
  | succ fuel ih =>
      intro s s' h
      obtain ⟨m, hs', hm⟩ := id h
      have hsize : s'.cache.size = s.cache.size := by rw [hs']; rfl
      have havailable : s'.cache.available = s.cache.available := by rw [hs']; rfl
      have hunderlying : s'.underlying = s.underlying := by rw [hs']; rfl
      rw [Ingress.readFromLoop, Ingress.readFromLoop, hsize, havailable, hunderlying]
      split
      · exact ⟨_, s, s', rfl, rfl, h⟩
      · split
        · exact ⟨_, s, s', rfl, rfl, h⟩
        · rcases s.underlying.readSome s.cache.available.size with _ | ⟨got, u⟩
          · exact ⟨_, s, s', rfl, rfl, h⟩
          · exact ih (h.after got u)

/-- Demands are answered in the same way. -/
theorem Stale.demand (h : Stale v s s') (hpos : 0 < s.cache.taken) (n : ℕ) :
    Reader.Answers (Blurs v) (fun s s' => Stale v s s' ∧ 0 < s.cache.taken)
      (Ingress.demand n s) (Ingress.demand n s') := by
  obtain ⟨m₀, hs', -⟩ := id h
  have hpos' : 0 < s'.cache.taken := by rw [hs']; exact hpos
  have hall : s'.underlying.all = s.underlying.all := by rw [hs']; rfl
  obtain ⟨r, t, t', hread, hread', m, rfl, hm⟩ :=
    h.readFromLoop (n := n) (s.underlying.all.length + 1)
  have hread' : Ingress.readFrom n s' = (r, t.withMemory m) := by
    rw [Ingress.readFrom, hall]
    exact hread'
  have htaken := taken_readFrom n s
  cases r with
  | error f =>
      rw [demand_of_error hread, demand_of_error hread']
      exact .error
  | ok u =>
      rw [show Ingress.readFrom n s = _ from hread] at htaken
      rw [demand_of_ok hread hpos, demand_of_ok hread' hpos']
      refine .ok (fun i => ?_) ⟨Stale.mark ⟨m, rfl, hm⟩ n, ?_⟩
      · show (load m (t.cache.first + t.cache.taken) n)[i]? = _
          ∨ (load m (t.cache.first + t.cache.taken) n)[i]? = some v
        by_cases hi : i < n
        · rw [getElem?_load hi, getElem?_load hi]
          exact (hm (t.cache.first + t.cache.taken + i)).imp (congrArg some) (congrArg some)
        · left
          rw [List.getElem?_eq_none (by rw [length_load]; omega),
            List.getElem?_eq_none (by rw [length_load]; omega)]
      · rw [taken_mark]
        simp only at htaken
        omega

end Stale

/-! ## A stale byte is handed out -/

/-- The cell `q` is committed, holds `v`, and lies before the window. -/
structure Holds (q : ℕ) (v : UInt8) (s : Ingress) : Prop where
  first_eq : s.cache.first = 0
  lt_last : q < s.cache.last
  lt_offset : q < s.cache.available.offset
  memory_eq : s.cache.memory q = v

theorem lasting_holds (q : ℕ) (v : UInt8) : Lasting (Holds q v) where
  read := by
    rintro s got underlying ⟨hfirst, hlast, hoffset, hmemory⟩ - -
    refine ⟨hfirst, ?_, ?_, (store_of_not_mem (Or.inl hoffset)).trans hmemory⟩
    · show q < s.cache.last + _
      omega
    · show q < s.cache.available.offset + _
      omega
  mark := fun h _ => ⟨h.first_eq, h.lt_last, h.lt_offset, h.memory_eq⟩

/-- What an ingress is configured with stays the same. -/
theorem lasting_config (e : Endpoint) (b : Bool) :
    Lasting fun s => s.remote = e ∧ s.fallback = b where
  read := fun _ _ _ h _ _ => h
  mark := fun h _ => h

/-- A request that fails is given up. -/
theorem giveUp_of_parseRequest {p : Platform} {s s₁ : Ingress} {memory : Memory} {x : Exception}
    (hcache : s.cache = Cache.make memory) (hfallback : s.fallback = true)
    (hparse : parseRequest p s = (.error (.thrown x), s₁)) :
    giveUp (.thrown x) s₁ = (.ok s.remote, { s₁ with cache := s₁.cache.rollback }) := by
  have hconfig := (lasting_config s.remote s.fallback).parseRequest p ⟨rfl, rfl⟩
    (show s.cache.first = 0 by rw [hcache]; rfl) (show s.cache.taken = 0 by rw [hcache]; rfl)
  rw [hparse] at hconfig
  obtain ⟨hremote, hfallback'⟩ : s₁.remote = s.remote ∧ s₁.fallback = s.fallback := hconfig
  simp only [giveUp, hfallback', hfallback, hremote]

theorem exists_fallsBack {p : Platform} {s : Ingress} {memory : Memory} {x : Exception}
    (hcache : s.cache = Cache.make memory) (hfallback : s.fallback = true)
    (hparse : (parseRequest p s).1 = .error (.thrown x)) : ∃ s', FallsBack p (.ok ()) s s' := by
  have hpair : parseRequest p s = (.error (.thrown x), (parseRequest p s).2) := Prod.ext hparse rfl
  exact ⟨_, fallsBack_iff.mpr ⟨x, _, hpair, giveUp_of_parseRequest hcache hfallback hpair⟩⟩

/-- **A stale byte is handed to the fallback.** -/
theorem not_transparent_of_holds {p : Platform} {s s₁ : Ingress} {memory : Memory} {x : Exception}
    {q : ℕ} {v y : UInt8} (hcache : s.cache = Cache.make memory) (hfallback : s.fallback = true)
    (hparse : parseRequest p s = (.error (.thrown x), s₁)) (hholds : Holds q v s₁)
    (hy : s.underlying.all[q]? = some y) (hne : y ≠ v) : ¬Transparent p (.ok ()) s := by
  intro htransparent
  have hgive := giveUp_of_parseRequest hcache hfallback hparse
  obtain ⟨htaken, hpending⟩ := pending_giveUp hholds.first_eq hgive
  have hback := fallsBack_iff.mpr ⟨x, s₁, hparse, hgive⟩
  -- as many calls with a buffer of one byte as there are bytes to hand out
  have hsizes : ∀ n ∈ List.replicate (pending { s₁ with cache := s₁.cache.rollback }).length 1,
      0 < n := by
    intro n hn
    rw [List.eq_of_mem_replicate hn]
    omega
  have hprefix := (htransparent _ hback
    (List.replicate (pending { s₁ with cache := s₁.cache.rollback }).length 1)).1
  rw [(received_recvRun_of_pos htaken hsizes).2 (by rw [List.length_replicate]), hpending]
    at hprefix
  obtain ⟨rest, hrest⟩ := hprefix
  have hcell : (load s₁.cache.memory 0 s₁.cache.last ++ s₁.underlying.all)[q]? = some v := by
    rw [List.getElem?_append_left (by rw [length_load]; exact hholds.lt_last),
      getElem?_load hholds.lt_last, Nat.zero_add, hholds.memory_eq]
  have hlt := (List.getElem?_eq_some_iff.mp hcell).1
  rw [← hrest, List.getElem?_append_left hlt, hcell] at hy
  exact hne (Option.some.inj hy).symm

/-! ## The third read -/

section Third

variable {s : Ingress} {memory : Memory} {piece second got : Bytes} {u₁ u₂ u₃ : Source UInt8}

/-- After the third read: it has left the cells behind the first two alone. -/
theorem Begins.thrice (hcache : s.cache = Cache.make memory)
    (h : Begins s.underlying piece second u₁ u₂)
    (hroom : piece.length + (piece.length + second.length) < capacity)
    (hthird : u₂.readSome (capacity - (piece.length + (piece.length + second.length)))
      = some (got, u₃)) :
    At (piece.length + second.length + got.length)
        (min capacity (piece.length + (piece.length + second.length)
          + (piece.length + second.length + got.length)))
        (((s.after piece u₁).after second u₂).after got u₃)
      ∧ (((s.after piece u₁).after second u₂).after got u₃).cache.taken = 0
      ∧ ∀ i, piece.length + second.length ≤ i → i < piece.length + (piece.length + second.length) →
        (((s.after piece u₁).after second u₂).after got u₃).cache.memory i = memory i := by
  obtain ⟨-, hgot, -⟩ := Source.readSome_spec (by omega) hthird
  obtain ⟨hat, htaken, -, hmemory⟩ := h.twice hcache
  rw [Nat.min_eq_right hroom.le] at hat
  have hsize := hat.room
  refine ⟨hat.after (by omega) (by omega), htaken, fun i hi hi' => ?_⟩
  show store ((s.after piece u₁).after second u₂).cache.memory
    ((s.after piece u₁).after second u₂).cache.available.offset got i = memory i
  rw [hat.offset_eq, store_of_not_mem (Or.inl hi'), hmemory, store_of_not_mem (Or.inr (by omega)),
    store_of_not_mem (Or.inr (by omega))]

/-- A demand that the first two pieces do not meet makes the third read. -/
theorem Begins.readFrom_twice (hcache : s.cache = Cache.make memory)
    (h : Begins s.underlying piece second u₁ u₂)
    (hroom : piece.length + (piece.length + second.length) < capacity)
    (hthird : u₂.readSome (capacity - (piece.length + (piece.length + second.length)))
      = some (got, u₃)) {n t : ℕ} (hlt : piece.length + second.length < t + n)
    (ht : t ≤ piece.length + second.length) :
    readFrom n (((s.after piece u₁).after second u₂).mark t)
      = readFrom n ((((s.after piece u₁).after second u₂).after got u₃).mark t) := by
  obtain ⟨hat, htaken, -, -⟩ := h.twice hcache
  rw [Nat.min_eq_right hroom.le] at hat
  have hsize : ((s.after piece u₁).after second u₂).cache.available.size
      = capacity - (piece.length + (piece.length + second.length)) := by
    have hsum := hat.room
    omega
  have hread : u₂.readSome ((s.after piece u₁).after second u₂).cache.available.size
      = some (got, u₃) := by
    rw [hsize]
    exact hthird
  refine readFrom_eq_after ?_ ?_ hread
  · rw [size_mark, hat.size, htaken]
    omega
  · show 0 < ((s.after piece u₁).after second u₂).cache.available.size
    omega

end Third

/-! ## A name of one byte -/

/-- The cells behind the length of a name hold ones, and there is room for a name of one byte,
a port and the end of a request. -/
structure Ones (s : Ingress) : Prop where
  first_eq : s.cache.first = 0
  memory_eq : ∀ i, 60 ≤ i → i < 66 → s.cache.memory i = 1
  offset_ge : 66 ≤ s.cache.available.offset
  room : s.cache.available.offset + s.cache.available.size = capacity
  last_ge : 61 ≤ s.cache.last
  offset_le : s.cache.last ≤ 65 → s.cache.available.offset ≤ 119 + (s.cache.last - 60) * 65

theorem lasting_ones : Lasting Ones where
  read := by
    rintro s got underlying ⟨hfirst, hmemory, hoffset, hroom, hlast, hle⟩ hpos hread
    obtain ⟨hne, hgot, -⟩ := Source.readSome_spec hpos hread
    have hlen := List.length_pos_of_ne_nil hne
    have hcap : capacity = 512 := rfl
    have hlast' : (s.cache.commit got).last
        = s.cache.last + min got.length (capacity - s.cache.last) := rfl
    have havailable : (s.cache.commit got).available
        = s.cache.available.advance ((s.cache.commit got).last - 0) := by
      rw [← hfirst]
      rfl
    refine ⟨hfirst, fun i hi hi' => ?_, ?_, ?_, ?_, fun hshort => ?_⟩
    · exact (store_of_not_mem (Or.inl (by omega))).trans (hmemory i hi hi')
    · show 66 ≤ (s.cache.commit got).available.offset
      rw [havailable]
      simp only [Window.advance]
      omega
    · show (s.cache.commit got).available.offset + (s.cache.commit got).available.size = capacity
      rw [havailable]
      simp only [Window.advance]
      split <;> omega
    · show 61 ≤ (s.cache.commit got).last
      omega
    · have hshort : (s.cache.commit got).last ≤ 65 := hshort
      show (s.cache.commit got).available.offset ≤ 119 + ((s.cache.commit got).last - 60) * 65
      rw [havailable]
      simp only [Window.advance]
      omega
  mark := fun h _ => ⟨h.first_eq, h.memory_eq, h.offset_ge, h.room, h.last_ge, h.offset_le⟩

/-- A demand for ones is met, or the stream ends. -/
theorem Ones.demand {s : Ingress} {n : ℕ} (h : Ones s) (htaken : 60 ≤ s.cache.taken)
    (hn : s.cache.taken + n ≤ 66) :
    (∃ s', Ingress.demand n s = (.error eof, s'))
      ∨ ∃ s', Ingress.demand n s = (.ok (List.replicate n 1), s') ∧ Ones s'
        ∧ s'.cache.taken = s.cache.taken + n := by
  have hread := lasting_ones.read.readFrom n h
  have htaken' := taken_readFrom n s
  rcases hread' : Ingress.readFrom n s with ⟨f | ⟨⟩, s'⟩
  · rw [hread'] at hread htaken'
    rcases error_of_readFrom hread' with rfl | ⟨hzero, hshort⟩
    · exact Or.inl ⟨s', demand_of_error hread'⟩
    · -- there is room as long as fewer than 66 bytes are committed
      obtain ⟨hfirst, -, -, hroom, -, hle⟩ : Ones s' := hread
      have hcap : capacity = 512 := rfl
      rw [Cache.size, hfirst] at hshort
      simp only at htaken'
      have hle' := hle (by omega)
      omega
  · rw [hread'] at hread htaken'
    refine Or.inr ⟨_, ?_, lasting_ones.mark hread (size_of_readFrom hread'), ?_⟩
    · rw [demand_of_ok hread' (by omega), show s'.cache.taken = s.cache.taken from htaken',
        hread.first_eq, Nat.zero_add]
      congr 2
      refine List.eq_replicate_iff.mpr ⟨length_load _ _ _, fun x hx => ?_⟩
      obtain ⟨i, hi, rfl⟩ := List.mem_map.mp hx
      exact hread.memory_eq _ (by omega) (by have hlt := List.mem_range.mp hi; omega)
    · rw [taken_mark, show s'.cache.taken = s.cache.taken from htaken']

/-- Ones are the name and the port, but not the end of a request. -/
theorem Ones.thrown {s : Ingress} (h : Ones s) (htaken : s.cache.taken = 61)
    (g : Bytes → Endpoint) :
    ∃ x, ((Reader.read 3 fun w => closing (g w)).run (fun s n => Ingress.demand n s) s).1
      = .error (.thrown x) := by
  rcases h.demand (show 60 ≤ s.cache.taken by omega) (show s.cache.taken + 3 ≤ 66 by omega) with
    ⟨s', hend⟩ | ⟨s', hword, h', htaken'⟩
  · rw [Reader.run, hend]
    exact ⟨_, rfl⟩
  · rw [Reader.run_read_of_ok hword, closing]
    rcases h'.demand (show 60 ≤ s'.cache.taken by omega)
      (show s'.cache.taken + 2 ≤ 66 by omega) with
      ⟨s'', hend⟩ | ⟨s'', hword', -, -⟩
    · rw [Reader.run, hend]
      exact ⟨_, rfl⟩
    · rw [Reader.run_read_of_ok hword', if_neg (by decide)]
      exact ⟨_, rfl⟩

/-! ## Requests with a third read -/

/-- The first two pieces start a request and do not decide it, and there is a third read. -/
structure Undecided (p : Platform) (s : Ingress) (piece second got : Bytes)
    (u₁ u₂ u₃ : Source UInt8) (n : ℕ) (k : Bytes → Reader UInt8 Fault Endpoint) (t : ℕ) : Prop where
  begins : Begins s.underlying piece second u₁ u₂
  greets : Greets s.passwords piece
  stuck : ∃ w : Bytes, t + w.length = piece.length + second.length
    ∧ (command p).Stuck (piece.drop 58 ++ second) n k w
  room : piece.length + (piece.length + second.length) < capacity
  third : u₂.readSome (capacity - (piece.length + (piece.length + second.length)))
    = some (got, u₃)

/-- The ingress after its third read. -/
def thirdRead (s : Ingress) (piece second got : Bytes) (u₁ u₂ u₃ : Source UInt8) : Ingress :=
  ((s.after piece u₁).after second u₂).after got u₃

section Undecided

variable {p : Platform} {s : Ingress} {memory : Memory} {piece second got : Bytes}
  {u₁ u₂ u₃ : Source UInt8} {n t : ℕ} {k : Bytes → Reader UInt8 Fault Endpoint} {v : UInt8}

theorem Undecided.parseRequest (h : Undecided p s piece second got u₁ u₂ u₃ n k t)
    (hcache : s.cache = Cache.make memory) :
    0 < t ∧ Ingress.parseRequest p s = (Reader.read n k).run (fun s n => Ingress.demand n s)
      ((thirdRead s piece second got u₁ u₂ u₃).mark t) := by
  obtain ⟨w, ht, hstuck⟩ := h.stuck
  have hshort := hstuck.length_lt
  obtain ⟨hpos, hparse⟩ := h.begins.parseRequest_of_stuck hcache h.greets hstuck t ht
  refine ⟨hpos, ?_⟩
  rw [hparse, Reader.run, Reader.run,
    demand_congr (h.begins.readFrom_twice hcache h.room h.third (by omega) (by omega))]
  rfl

theorem Undecided.withMemory (h : Undecided p s piece second got u₁ u₂ u₃ n k t) (m : Memory) :
    Undecided p (s.withMemory m) piece second got u₁ u₂ u₃ n k t :=
  ⟨h.begins, h.greets, h.stuck, h.room, h.third⟩

theorem cache_withMemory (hcache : s.cache = Cache.make memory) (m : Memory) :
    (s.withMemory m).cache = Cache.make m := by
  rw [Ingress.withMemory, hcache]
  rfl

/-- The cell behind the first two pieces holds what it held at first. -/
theorem Undecided.holds (h : Undecided p s piece second got u₁ u₂ u₃ n k t)
    (hcache : s.cache = Cache.make memory) :
    Holds (piece.length + second.length) (memory (piece.length + second.length))
      ((thirdRead s piece second got u₁ u₂ u₃).mark t) := by
  have hroom := h.room
  have hlong := h.greets.1
  obtain ⟨hne, -, -⟩ := Source.readSome_spec (by omega) h.third
  have hpos := List.length_pos_of_ne_nil hne
  obtain ⟨hat, -, hmemory⟩ := h.begins.thrice hcache h.room h.third
  refine ⟨hat.first_eq, ?_, ?_, hmemory _ (le_refl _) (by omega)⟩
  · show _ < (((s.after piece u₁).after second u₂).after got u₃).cache.last
    rw [hat.last_eq]
    omega
  · show _ < (((s.after piece u₁).after second u₂).after got u₃).cache.available.offset
    rw [hat.offset_eq]
    omega

/-- The byte of the client in that place. -/
theorem Undecided.getElem?_all (h : Undecided p s piece second got u₁ u₂ u₃ n k t) :
    s.underlying.all[piece.length + second.length]? = got[0]? := by
  have hroom := h.room
  obtain ⟨hne, -, hthird⟩ := Source.readSome_spec (by omega) h.third
  obtain ⟨-, -, hfirst⟩ := Source.readSome_spec (by decide) h.begins.readFirst
  obtain ⟨-, -, hsecond⟩ := Source.readSome_spec (by omega) h.begins.readSecond
  rw [hfirst, hsecond, hthird, ← List.append_assoc, List.getElem?_append_right (by simp),
    List.length_append, Nat.sub_self, List.getElem?_append_left (List.length_pos_of_ne_nil hne)]

/-- If the parser gives up with some memory, the fallback is handed the stale byte. -/
theorem Undecided.not_transparent (h : Undecided p s piece second got u₁ u₂ u₃ n k t)
    (hcache : s.cache = Cache.make memory) (hfallback : s.fallback = true) (m : Memory)
    {f : Fault} (hf : IsThrown f)
    (hrun : ((Reader.read n k).run (fun s n => Ingress.demand n s)
      ((thirdRead (s.withMemory m) piece second got u₁ u₂ u₃).mark t)).1 = .error f)
    (hm : got[0]? ≠ some (m (piece.length + second.length))) :
    ¬Transparent p (.ok ()) (s.withMemory m) := by
  have h' := h.withMemory m
  have hcache' := cache_withMemory hcache m
  have hroom := h.room
  obtain ⟨x, rfl⟩ := hf
  obtain ⟨hpos, hparse⟩ := h'.parseRequest hcache'
  have hholds := (lasting_holds _ _).run (Reader.read n k) (h'.holds hcache')
    (by rw [taken_mark]; omega)
  rw [← hparse] at hholds hrun
  obtain ⟨hne, -, -⟩ := Source.readSome_spec (by omega) h.third
  obtain ⟨y, got', rfl⟩ := List.exists_cons_of_ne_nil hne
  refine not_transparent_of_holds hcache' hfallback (Prod.ext hrun rfl) hholds h'.getElem?_all ?_
  exact fun heq => hm (by rw [heq]; rfl)

/-- Waiting for one byte, the parser gets the stale one. -/
theorem Undecided.demand_stale (h : Undecided p s piece second got u₁ u₂ u₃ n k t)
    (hcache : s.cache = Cache.make memory) (ht : t = piece.length + second.length) :
    Ingress.demand 1 ((thirdRead s piece second got u₁ u₂ u₃).mark t)
      = (.ok [memory t], (thirdRead s piece second got u₁ u₂ u₃).mark (t + 1)) := by
  have hroom := h.room
  have hlong := h.greets.1
  obtain ⟨hne, -, -⟩ := Source.readSome_spec (by omega) h.third
  have hpos := List.length_pos_of_ne_nil hne
  obtain ⟨hat, htaken, hmemory⟩ := h.begins.thrice hcache h.room h.third
  have hread : readFrom 1 ((thirdRead s piece second got u₁ u₂ u₃).mark t)
      = (.ok (), (thirdRead s piece second got u₁ u₂ u₃).mark t) := by
    apply readFrom_of_le
    rw [size_mark, thirdRead, hat.size, htaken]
    omega
  rw [demand_marked hread hat.first_eq htaken (by omega)]
  have hcell : load (thirdRead s piece second got u₁ u₂ u₃).cache.memory t 1 = [memory t] :=
    congrArg (fun x => [x]) (hmemory t (by omega) (by omega))
  rw [hcell]

/-- Waiting for the type of the endpoint, the parser fails on a byte that is none. -/
theorem Undecided.of_type (h : Undecided p s piece second got u₁ u₂ u₃ 1 (afterType p) t)
    (hcache : s.cache = Cache.make memory) (hfallback : s.fallback = true)
    (ht : t = piece.length + second.length) (hv : v ≠ 0x01 ∧ v ≠ 0x03 ∧ v ≠ 0x04)
    (hgot : got[0]? ≠ some v) : ¬Transparent p (.ok ()) (s.withMemory fun _ => v) := by
  have hdemand := (h.withMemory fun _ => v).demand_stale (cache_withMemory hcache _) ht
  refine h.not_transparent hcache hfallback _ isThrown_badProto ?_ hgot
  rw [Reader.run_read_of_ok hdemand, afterType]
  simp only [headD_overwrite_singleton, hv, if_false]
  rfl

/-- Waiting for the length of a name, the parser fails on a name without bytes. -/
theorem Undecided.of_length_zero {buf : Bytes}
    (h : Undecided p s piece second got u₁ u₂ u₃ 1 (afterLength buf) t)
    (hcache : s.cache = Cache.make memory) (hfallback : s.fallback = true)
    (ht : t = piece.length + second.length) (hgot : got[0]? ≠ some 0) :
    ¬Transparent p (.ok ()) (s.withMemory fun _ => 0) := by
  have hdemand := (h.withMemory fun _ => 0).demand_stale (cache_withMemory hcache _) ht
  refine h.not_transparent hcache hfallback _ isThrown_badProto ?_ hgot
  rw [Reader.run_read_of_ok hdemand, afterLength]
  rfl

/-- A name of one byte that is all ones is not followed by the end of a request. -/
theorem Undecided.of_length_one {buf : Bytes}
    (h : Undecided p s piece second got u₁ u₂ u₃ 1 (afterLength buf) t)
    (hcache : s.cache = Cache.make memory) (hfallback : s.fallback = true)
    (ht : t = piece.length + second.length) (hsixty : t = 60) (hgot : got[0]? ≠ some 1) :
    ¬Transparent p (.ok ()) (s.withMemory fun _ => 1) := by
  have hcache' := cache_withMemory hcache fun _ => 1
  have h' := h.withMemory fun _ => 1
  have hdemand := h'.demand_stale hcache' ht
  have hroom := h.room
  have hlong := h.greets.1
  have hcap : capacity = 512 := rfl
  obtain ⟨hne, -, -⟩ := Source.readSome_spec (by omega) h.third
  have hpos := List.length_pos_of_ne_nil hne
  obtain ⟨hne', -, -⟩ := Source.readSome_spec (by omega) h.begins.readSecond
  have hpos' := List.length_pos_of_ne_nil hne'
  obtain ⟨hat, htaken, hmemory⟩ := h'.begins.thrice hcache' h.room h.third
  have hones : Ones ((thirdRead (s.withMemory fun _ => 1) piece second got u₁ u₂ u₃).mark 61) := by
    have hlast :
        ((thirdRead (s.withMemory fun _ => 1) piece second got u₁ u₂ u₃).mark 61).cache.last
        = 60 + got.length := by
      show (((_ : Ingress).after second u₂).after got u₃).cache.last = _
      rw [hat.last_eq]
      omega
    have hoffset : ((thirdRead (s.withMemory fun _ => 1) piece second got u₁ u₂ u₃).mark
        61).cache.available.offset = min capacity (piece.length + 120 + got.length) := by
      show (((_ : Ingress).after second u₂).after got u₃).cache.available.offset = _
      rw [hat.offset_eq]
      omega
    refine ⟨hat.first_eq, fun i hi hi' => hmemory i (by omega) (by omega), ?_, ?_, ?_, fun _ => ?_⟩
    · omega
    · exact hat.offset_eq ▸ hat.room
    · omega
    · omega
  have htaken' :
      ((thirdRead (s.withMemory fun _ => 1) piece second got u₁ u₂ u₃).mark 61).cache.taken
      = 61 := by
    rw [taken_mark, thirdRead, htaken]
  obtain ⟨x, hx⟩ := hones.thrown htaken' fun w => ⟨.domainName,
    (overwrite (overwrite buf [1]) w).take 1, ntoh ((overwrite (overwrite buf [1]) w).drop 1)⟩
  refine h.not_transparent hcache hfallback _ ⟨x, rfl⟩ ?_ hgot
  rw [Reader.run_read_of_ok hdemand, hsixty]
  exact hx

/-- Behind the control bytes, the parser fails on any memory that holds no byte of an end of
line, if it fails on some memory. -/
theorem Undecided.of_follows (h : Undecided p s piece second got u₁ u₂ u₃ n k t)
    (hcache : s.cache = Cache.make memory) (hfallback : s.fallback = true)
    (hfollows : Reader.Follows (Blurs v) IsThrown (.read n k) (.read n k)) {s' : Ingress}
    (hback : FallsBack p (.ok ()) s s') (hgot : got[0]? ≠ some v) :
    ¬Transparent p (.ok ()) (s.withMemory fun _ => v) := by
  obtain ⟨hpos, hparse⟩ := h.parseRequest hcache
  obtain ⟨x, s₁, herror, -⟩ := fallsBack_iff.mp hback
  rw [hparse] at herror
  have hstale : Stale v s (s.withMemory fun _ => v) := ⟨_, rfl, fun i => Or.inr rfl⟩
  have hstale' := (((hstale.after piece u₁).after second u₂).after got u₃).mark t
  obtain ⟨f, hf, hthrown⟩ := hfollows.run (fun s s' => Stale v s s' ∧ 0 < s.cache.taken)
    (fun s s' hs n => hs.1.demand hs.2 n) ⟨hstale', by rw [taken_mark]; omega⟩
    (congrArg Prod.fst herror) ⟨x, rfl⟩
  exact h.not_transparent hcache hfallback _ hthrown hf hgot

/-- **Memory for which the fallback sees something else** than the client sent. -/
theorem Undecided.exists_not_transparent (h : Undecided p s piece second got u₁ u₂ u₃ n k t)
    (hcache : s.cache = Cache.make memory) (hfallback : s.fallback = true) {s' : Ingress}
    (hback : FallsBack p (.ok ()) s s') : ∃ m, ¬Transparent p (.ok ()) (s.withMemory m) := by
  obtain ⟨w, ht, hstuck⟩ := id h.stuck
  have hroom := h.room
  have hlong := h.greets.1
  obtain ⟨hne, -, -⟩ := Source.readSome_spec (by omega) h.begins.readSecond
  have hfits := h.begins.fits
  -- a byte that is no type, no byte of an end of line, and not the one of the client
  obtain ⟨v, hgot, htype, hcrlf⟩ : ∃ v : UInt8, got[0]? ≠ some v
      ∧ (v ≠ 0x01 ∧ v ≠ 0x03 ∧ v ≠ 0x04) ∧ v ∉ crlf := by
    by_cases hzero : got[0]? = some 0
    · exact ⟨2, by rw [hzero]; decide, by decide, by decide⟩
    · exact ⟨0, hzero, by decide, by decide⟩
  rcases stuck_command hstuck (by simp [hne]) with
    ⟨-, hnil, rfl, rfl⟩ | ⟨hlen, hnil, rfl, buf, rfl⟩ | hfollows
  · rw [hnil] at ht
    exact ⟨_, h.of_type hcache hfallback ht htype hgot⟩
  · rw [hnil] at ht
    rw [List.length_append, List.length_drop] at hlen
    by_cases hzero : got[0]? = some 0
    · refine ⟨_, h.of_length_one hcache hfallback ht
        (by simp only [List.length_nil] at ht; omega) ?_⟩
      rw [hzero]
      decide
    · exact ⟨_, h.of_length_zero hcache hfallback ht hzero⟩
  · exact ⟨_, h.of_follows hcache hfallback (hfollows v hcrlf) hback hgot⟩

end Undecided

/-- A stream with a third read on which `read_remote` gives up. -/
theorem exists_undecided {p : Platform} {s s' : Ingress} {memory : Memory}
    {piece second third : Bytes} {rest : List Bytes} (hcache : s.cache = Cache.make memory)
    (hpieces : s.underlying.pieces = piece :: second :: third :: rest)
    (hgreets : Greets s.passwords piece)
    (hstarves : (command p).starves (piece.drop 58 ++ second) = true)
    (hback : FallsBack p (.ok ()) s s') :
    ∃ got u₁ u₂ u₃ n k t, Undecided p s piece second got u₁ u₂ u₃ n k t := by
  have hlong := hgreets.1
  have hcap : capacity = 512 := rfl
  obtain ⟨n, k, w, hstuck⟩ := Reader.exists_stuck_of_starves _ hstarves
  have hshort : (piece.drop 58 ++ second).length < 262 := by
    by_contra hle
    rw [Reader.not_starves_of_within _ (within_command p) (not_lt.mp hle)] at hstarves
    cases hstarves
  rw [List.length_append, List.length_drop] at hshort
  obtain ⟨u₁, hread₁, hrest₁⟩ := Source.readSome_of_pieces (n := capacity) (by decide) hpieces
  have hu₁ := hrest₁ (by omega)
  rw [List.take_of_length_le (by omega)] at hread₁
  obtain ⟨u₂, hread₂, hrest₂⟩ :=
    Source.readSome_of_pieces (n := capacity - piece.length) (by omega) hu₁
  have hu₂ := hrest₂ (by omega)
  rw [List.take_of_length_le (by omega)] at hread₂
  have hbegins : Begins s.underlying piece second u₁ u₂ := ⟨hread₁, hread₂, by omega⟩
  have hw : w.length ≤ piece.length + second.length := by
    have hle := hstuck.length_le
    rw [List.length_append, List.length_drop] at hle
    omega
  obtain ⟨t, ht⟩ := Nat.exists_eq_add_of_le' hw
  have hroom : piece.length + (piece.length + second.length) < capacity := by
    -- without room the third read goes on for ever, and nothing is given up
    by_contra hfull
    obtain ⟨hat, htaken, -, -⟩ := hbegins.twice hcache
    obtain ⟨hpos, hparse⟩ := hbegins.parseRequest_of_stuck hcache hgreets hstuck t ht.symm
    obtain ⟨x, s₁, herror, -⟩ := fallsBack_iff.mp hback
    have hlt := hstuck.length_lt
    have hread : readFrom n (((s.after piece u₁).after second u₂).mark t)
        = (.error .divergence, ((s.after piece u₁).after second u₂).mark t) := by
      refine readFrom_of_no_room ?_ ?_
      · rw [size_mark, hat.size, htaken]
        omega
      · show ((s.after piece u₁).after second u₂).cache.available.size = 0
        have hsum := hat.room
        omega
    rw [hparse, Reader.run, demand_of_error hread] at herror
    cases herror
  obtain ⟨u₃, hread₃, -⟩ := Source.readSome_of_pieces
    (n := capacity - (piece.length + (piece.length + second.length))) (by omega) hu₂
  exact ⟨_, u₁, u₂, u₃, n, k, t, hbegins, hgreets, ⟨w, ht.symm, hstuck⟩, hroom, hread₃⟩

/-! ## The fallback -/

section Main

variable {p : Platform} {sha224 : Bytes → Digest} {cred : TrojanIngressCredential}
  {opt : TrojanOption} {accepted : Result Unit} {src : Source UInt8}

/-- **When the fallback is transparent.**  For every stream, in any segmentation, on which
`read_remote` gives up for some contents of the cache: whatever the cache held at first, calls
of `recv` with any sizes hand out the bytes of the client from the first one on, if and only if
the layer below was not accepted, or there are two pieces at most, or the first two decide what
becomes of the request. -/
theorem transparent_iff
    (hgives : ∃ memory s', FallsBack p accepted (make sha224 cred opt true memory src) s') :
    (∀ memory, Transparent p accepted (make sha224 cred opt true memory src))
      ↔ accepted ≠ .ok ()
        ∨ Settled p (cred.credential.keys.map fun pw => (sha224 pw).1) src.pieces := by
  have hcache : ∀ memory, (make sha224 cred opt true memory src).cache = Cache.make memory :=
    fun memory => rfl
  constructor
  · intro htransparent
    by_contra hunsettled
    push Not at hunsettled
    obtain ⟨rfl, hunsettled⟩ := hunsettled
    obtain ⟨memory, s', hback⟩ := hgives
    rcases hpieces : src.pieces with _ | ⟨piece, _ | ⟨second, _ | ⟨third, rest⟩⟩⟩
    · exact hunsettled (by rw [hpieces]; trivial)
    · exact hunsettled (by rw [hpieces]; trivial)
    · exact hunsettled (by rw [hpieces]; trivial)
    · rw [hpieces, Settled] at hunsettled
      push Not at hunsettled
      obtain ⟨hgreets, hstarves⟩ := hunsettled
      obtain ⟨got, u₁, u₂, u₃, n, k, t, hundecided⟩ := exists_undecided (hcache memory)
        hpieces hgreets (Bool.not_eq_false _ ▸ hstarves) hback
      obtain ⟨m, hm⟩ := hundecided.exists_not_transparent (hcache memory) rfl hback
      exact hm (htransparent m)
  · intro h memory
    rcases h with haccepted | hsettled
    · exact transparent_of_not_accepted haccepted ⟨rfl, rfl⟩
    · by_cases haccepted : accepted = .ok ()
      · subst haccepted
        have hintact : Intact src.all (parseRequest p (make sha224 cred opt true memory src)).2 :=
          intact_of_settled (hcache memory) hsettled
        apply transparent_of_intact
        intro x s₁ hparse
        rw [hparse] at hintact
        exact hintact
      · exact transparent_of_not_accepted haccepted ⟨rfl, rfl⟩

end Main

/-- A client that is no Trojan client: its first piece is too short for a request. -/
theorem transparent_iff_example :
    ∃ src : Source UInt8, src.pieces = [lit "GET / ", lit "HTTP/1.1", crlf, crlf]
      ∧ (∃ s', FallsBack Reference.platform (.ok ()) (Example.ingress (fun _ => 0) src) s')
      ∧ ∀ memory, Transparent Reference.platform (.ok ()) (Example.ingress memory src) := by
  refine ⟨⟨[lit "GET / ", lit "HTTP/1.1", crlf, crlf], by decide⟩, rfl, ?_⟩
  have hparse : (parseRequest Reference.platform (Example.ingress (fun _ => 0)
      ⟨[lit "GET / ", lit "HTTP/1.1", crlf, crlf], by decide⟩)).1 = .error badProto := by
    decide +kernel
  have hback := exists_fallsBack rfl rfl hparse
  refine ⟨hback, (transparent_iff ⟨_, hback⟩).mpr (Or.inr ?_)⟩
  exact fun hgreets => absurd hgreets.1 (by decide)

/-- A client that knows a password and sends something else than an endpoint, with the command
in a piece of its own: over memory that holds zeroes `read_remote` gives up, and the fallback is
handed zeroes in the place of what the client sent. -/
theorem transparent_counterexample :
    ∃ src : Source UInt8,
      src.pieces = [Example.hash ++ crlf, [1], lit "GET / HTTP/1.1"]
      ∧ src.all = Example.hash ++ crlf ++ [1] ++ lit "GET / HTTP/1.1"
      ∧ ¬Transparent Reference.platform (.ok ()) (Example.ingress (fun _ => 0) src) := by
  refine ⟨⟨[Example.hash ++ crlf, [1], lit "GET / HTTP/1.1"], by decide⟩, rfl, by decide, ?_⟩
  intro htransparent
  have hparse : (parseRequest Reference.platform (Example.ingress (fun _ => 0)
      ⟨[Example.hash ++ crlf, [1], lit "GET / HTTP/1.1"], by decide⟩)).1 = .error badProto := by
    decide +kernel
  obtain ⟨s', hback⟩ := exists_fallsBack rfl rfl hparse
  have hall := (htransparent s' hback [512]).1
  have hstate : s' = (readRemote Reference.platform (.ok ()) (Example.ingress (fun _ => 0)
      ⟨[Example.hash ++ crlf, [1], lit "GET / HTTP/1.1"], by decide⟩)).2 := by
    rw [hback.2]
  rw [hstate] at hall
  revert hall
  decide +kernel

end Ingress

end Trojan

end Pichi
