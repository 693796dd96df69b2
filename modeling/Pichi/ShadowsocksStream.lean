/-
# Shadowsocks streams end to end

What a Shadowsocks writer puts on the socket and what a reader makes of it.  `wire` is
the sequence of frames a key and a starting nonce give; a writer appends frames to it
(`doWrite_step`), and a reader works it off, whatever the sizes of its buffers and the
segmentation of the socket are (`doRead_step`).  The invariant of the reader, `Reading`,
is a simulation: what it has delivered and what it caches are the payloads of the frames it
has taken from the wire, and the rest of the wire continues under its own nonce.

**Main results**: `shadowsocks_round_trip`, and `write_transmits_iff`, which says for which
buffers the composed write of a stream transmits the whole buffer.
-/
import Mathlib.Logic.Function.Iterate
import Pichi.Reference

namespace Pichi

namespace Shadowsocks

open Transfer (Source Sink chunks)

/-! ## Frames on the wire -/

section Wire

variable (c : Crypto) (m : CryptoMethod) (key : Bytes)

/-- One AEAD block: the ciphertext and its tag. -/
def sealBlock (nonce x : Bytes) : Bytes :=
  c.encrypt m key nonce x ++ c.tag m key nonce (c.encrypt m key nonce x)

/-- The frames with the given payloads, sealed from a nonce on. -/
def wire : Bytes → List Bytes → Bytes
  | _, [] => []
  | nonce, x :: xs =>
    sealBlock c m key nonce (hton (UInt16.ofNat x.length))
      ++ sealBlock c m key (sodiumIncrement nonce) x
      ++ wire (sodiumIncrement (sodiumIncrement nonce)) xs

end Wire

/-- The nonce after `k` frames, of two blocks each. -/
def nonceAfter (nonce : Bytes) (k : ℕ) : Bytes := sodiumIncrement^[2 * k] nonce

@[simp] theorem nonceAfter_zero (nonce : Bytes) : nonceAfter nonce 0 = nonce := rfl

theorem nonceAfter_succ (nonce : Bytes) (k : ℕ) :
    nonceAfter nonce (k + 1) = nonceAfter (sodiumIncrement (sodiumIncrement nonce)) k := rfl

theorem nonceAfter_succ' (nonce : Bytes) (k : ℕ) :
    nonceAfter nonce (k + 1) = sodiumIncrement (sodiumIncrement (nonceAfter nonce k)) := by
  show sodiumIncrement^[2 * k + 1 + 1] nonce = _
  rw [Function.iterate_succ_apply', Function.iterate_succ_apply']
  rfl

theorem nonceAfter_add (nonce : Bytes) (j k : ℕ) :
    nonceAfter nonce (j + k) = nonceAfter (nonceAfter nonce j) k := by
  unfold nonceAfter
  rw [← Function.iterate_add_apply]
  congr 2
  omega

variable {c : Crypto} {m : CryptoMethod} {key : Bytes}

theorem wire_append (nonce : Bytes) (xs ys : List Bytes) :
    wire c m key nonce (xs ++ ys)
      = wire c m key nonce xs ++ wire c m key (nonceAfter nonce xs.length) ys := by
  induction xs generalizing nonce with
  | nil => rfl
  | cons x xs ih =>
      rw [List.cons_append, wire, wire, ih, List.length_cons, nonceAfter_succ]
      simp only [List.append_assoc]

theorem length_sealBlock (hc : c.Sound) (nonce x : Bytes) :
    (sealBlock c m key nonce x).length = x.length + 16 := by
  rw [sealBlock, List.length_append, hc.length_encrypt, hc.length_tag]

/-! ## The writer -/

theorem process_of_key {e : Encryptor} (hkey : e.cryptor.key = some key)
    (hm : e.cryptor.method = m) (x : Bytes) :
    e.process c x = (.ok (sealBlock c m key e.cryptor.nonce x),
      ⟨⟨m, some key, sodiumIncrement e.cryptor.nonce⟩, []⟩) := by
  subst hm
  simp only [Encryptor.process, Cryptor.encrypt, hkey, sealBlock]

/-- The encryptor after some frames; the first one drops the salt. -/
def afterFrames (m : CryptoMethod) (key : Bytes) (e : Encryptor) (k : ℕ) : Encryptor :=
  if k = 0 then e else ⟨⟨m, some key, nonceAfter e.cryptor.nonce k⟩, []⟩

/-- A frame moves the nonce by two. -/
theorem afterFrames_succ (e : Encryptor) (k : ℕ) :
    afterFrames m key ⟨⟨m, some key, sodiumIncrement (sodiumIncrement e.cryptor.nonce)⟩, []⟩ k
      = afterFrames m key e (k + 1) := by
  unfold afterFrames
  rw [if_neg (Nat.succ_ne_zero k), nonceAfter_succ]
  split
  · rename_i h0
    rw [h0, nonceAfter_zero]
  · rfl

/-- A frame is 34 bytes longer than its plaintext: two tags and the length. -/
theorem length_frame (hc : c.Sound) (nonce nonce' x : Bytes) (n : UInt16) :
    (sealBlock c m key nonce (hton n) ++ sealBlock c m key nonce' x).length = x.length + 34 := by
  rw [List.length_append, length_sealBlock hc, length_sealBlock hc, length_hton]
  omega

/-- The loop of `do_write` on a socket that does not break: it puts the frames on the wire
and counts the bytes of ciphertext. -/
theorem writeFrames_eq (hc : c.Sound) (plain : Bytes) :
    ∀ (ret : ℕ) (s : Shadowsocks), s.encryptor.cryptor.key = some key →
      s.encryptor.cryptor.method = m → s.output.room = none →
      writeFrames c plain ret s
        = (.ok (ret + (plain.length + 34 * (chunks frameSize plain).length)),
          { s with
            output := ⟨s.output.sent
              ++ wire c m key s.encryptor.cryptor.nonce (chunks frameSize plain), none⟩
            encryptor := afterFrames m key s.encryptor (chunks frameSize plain).length }) := by
  have hfs : 0 < frameSize := by decide
  -- each round of the loop takes one chunk off the plaintext
  induction plain using Transfer.chunks_induction hfs with
  | nil =>
      intro ret s hkey hm hroom
      rw [writeFrames, dif_pos rfl, Transfer.chunks_nil]
      obtain ⟨pw, cache, sentry, input, ⟨sent, room⟩, encryptor, decryptor⟩ := s
      simp only at hroom
      subst hroom
      simp [wire, afterFrames]
  | step plain hplain ih =>
      intro ret s hkey hm hroom
      have htake : plain.take (min plain.length frameSize) = plain.take frameSize := by
        rw [Nat.min_comm, ← List.take_eq_take_min]
      have hdrop : plain.drop (min plain.length frameSize) = plain.drop frameSize := by
        rw [Nat.min_comm, ← List.drop_eq_drop_min]
      have hlen : min plain.length frameSize = (plain.take frameSize).length := by
        rw [List.length_take, Nat.min_comm]
      have hkey' : (⟨⟨m, some key, sodiumIncrement s.encryptor.cryptor.nonce⟩, []⟩
          : Encryptor).cryptor.key = some key := rfl
      rw [writeFrames, dif_neg hplain]
      simp only [htake, hdrop, process_of_key hkey hm, process_of_key (m := m) hkey' rfl,
        Sink.write_of_healthy hroom, if_true]
      rw [ih _ _ rfl rfl rfl, Transfer.chunks_of_ne_nil hfs hplain, length_frame hc]
      have hcount : ret + ((plain.take frameSize).length + 34) + ((plain.drop frameSize).length
            + 34 * (chunks frameSize (plain.drop frameSize)).length)
          = ret + (plain.length
            + 34 * (plain.take frameSize :: chunks frameSize (plain.drop frameSize)).length) := by
        rw [List.length_take, List.length_drop, List.length_cons]
        omega
      rw [hcount, List.length_cons, ← afterFrames_succ]
      simp only [wire, hlen, List.append_assoc]

/-- What a writer has put on the socket: nothing, or the salt and some frames. -/
def Sent (c : Crypto) (m : CryptoMethod) (key salt : Bytes) (frames : List Bytes)
    (sent : Bytes) : Prop :=
  (sent = [] ∧ frames = [])
    ∨ sent = salt ++ wire c m key (List.replicate m.nonceSize 0) frames

/-- A writer that has sent the given frames over a socket that does not break. -/
structure Written (c : Crypto) (m : CryptoMethod) (key salt : Bytes) (frames : List Bytes)
    (s : Shadowsocks) : Prop where
  room : s.output.room = none
  cryptor : s.encryptor.cryptor
    = ⟨m, some key, nonceAfter (List.replicate m.nonceSize 0) frames.length⟩
  stage : (s.encryptor.salt = salt ∧ s.output.sent = [] ∧ frames = [])
    ∨ (s.encryptor.salt = []
      ∧ s.output.sent = salt ++ wire c m key (List.replicate m.nonceSize 0) frames)

theorem Written.sent {salt : Bytes} {frames : List Bytes} {s : Shadowsocks}
    (h : Written c m key salt frames s) : Sent c m key salt frames s.output.sent := by
  rcases h.stage with ⟨-, hsent, hframes⟩ | ⟨-, hsent⟩
  · exact Or.inl ⟨hsent, hframes⟩
  · exact Or.inr hsent

theorem written_make (pw salt : Bytes) (sentry : Bool) (input : Source UInt8) :
    Written c m (Cryptor.deriveKey c pw salt) salt []
      (make c m pw salt sentry input Sink.healthy) :=
  ⟨rfl, rfl, Or.inl ⟨rfl, rfl, rfl⟩⟩

/-- **One call of `do_write`**: a non-empty buffer adds its frames to the wire, after the
salt if that has not been sent.  The count it returns is the one of the ciphertext. -/
theorem doWrite_step (hc : c.Sound) {salt : Bytes} {frames : List Bytes} {s : Shadowsocks}
    (h : Written c m key salt frames s) {plain : Bytes} (hplain : plain ≠ []) :
    (doWrite c plain s).1 = .ok (plain.length + 34 * (chunks frameSize plain).length)
      ∧ Written c m key salt (frames ++ chunks frameSize plain) (doWrite c plain s).2 := by
  have hfs : 0 < frameSize := by decide
  have hcount : (chunks frameSize plain).length ≠ 0 := by
    rw [Transfer.chunks_of_ne_nil hfs hplain]
    simp
  have hkey : s.encryptor.cryptor.key = some key := by rw [h.cryptor]
  have hm : s.encryptor.cryptor.method = m := by rw [h.cryptor]
  -- after the salt, if it is still to be sent, the loop runs on a state `s₁`
  obtain ⟨s₁, hwrite, hs₁, hsent⟩ : ∃ s₁ : Shadowsocks, doWrite c plain s = writeFrames c plain 0 s₁
      ∧ s₁.encryptor.cryptor = s.encryptor.cryptor ∧ s₁.output
        = ⟨salt ++ wire c m key (List.replicate m.nonceSize 0) frames, none⟩ := by
    rcases h.stage with ⟨hsalt, hout, hframes⟩ | ⟨hsalt, hout⟩
    · by_cases hempty : salt = []
      · refine ⟨s, by simp [doWrite, hsalt, hempty], rfl, ?_⟩
        obtain ⟨pw, cache, sentry, input, ⟨sent, room⟩, encryptor, decryptor⟩ := s
        obtain ⟨rfl, rfl⟩ : sent = [] ∧ room = none := ⟨hout, h.room⟩
        simp [hempty, hframes, wire]
      · refine ⟨{ s with output := ⟨salt, none⟩ }, ?_, rfl, by simp [hframes, wire]⟩
        simp [doWrite, hsalt, hempty, writeSalt, Sink.write_of_healthy h.room, hout]
    · refine ⟨s, by simp [doWrite, hsalt], rfl, ?_⟩
      obtain ⟨pw, cache, sentry, input, ⟨sent, room⟩, encryptor, decryptor⟩ := s
      obtain ⟨rfl, rfl⟩ : sent = _ ∧ room = none := ⟨hout, h.room⟩
      rfl
  have hkey₁ : s₁.encryptor.cryptor.key = some key := by rw [hs₁]; exact hkey
  have hm₁ : s₁.encryptor.cryptor.method = m := by rw [hs₁]; exact hm
  have hloop := writeFrames_eq hc plain 0 s₁ hkey₁ hm₁ (by rw [hsent])
  rw [hwrite, hloop]
  refine ⟨by simp, ⟨rfl, ?_, Or.inr ⟨?_, ?_⟩⟩⟩
  · simp only [afterFrames, hcount, if_false, hs₁, h.cryptor]
    rw [← nonceAfter_add, List.length_append]
  · simp only [afterFrames, hcount, if_false]
  · simp only [hsent, hs₁, h.cryptor, wire_append, List.append_assoc]

/-- Several calls of `do_write` in a row, as long as they succeed. -/
def writeRun (c : Crypto) : List Bytes → Shadowsocks → Result Unit × Shadowsocks
  | [], s => (.ok (), s)
  | plain :: plains, s =>
    match doWrite c plain s with
    | (.error f, s) => (.error f, s)
    | (.ok _, s) => writeRun c plains s

/-- The frames of a list of buffers. -/
def framesOf (plains : List Bytes) : List Bytes := plains.flatMap (chunks frameSize)

theorem flatten_framesOf (plains : List Bytes) : (framesOf plains).flatten = plains.flatten := by
  induction plains with
  | nil => rfl
  | cons plain plains ih =>
      rw [framesOf, List.flatMap_cons, List.flatten_append,
        Transfer.flatten_chunks (by decide), List.flatten_cons]
      exact congrArg _ ih

theorem of_mem_framesOf {plains : List Bytes} :
    ∀ x ∈ framesOf plains, x ≠ [] ∧ x.length ≤ frameSize := by
  intro x hx
  obtain ⟨plain, -, hx⟩ := List.mem_flatMap.mp hx
  exact Transfer.of_mem_chunks (by decide) plain x hx

/-- **A run of writes** puts the frames of all buffers on the wire. -/
theorem writeRun_spec (hc : c.Sound) {salt : Bytes} :
    ∀ (plains : List Bytes) {frames : List Bytes} {s : Shadowsocks},
      Written c m key salt frames s → (∀ plain ∈ plains, plain ≠ []) →
      (writeRun c plains s).1 = .ok ()
        ∧ Written c m key salt (frames ++ framesOf plains) (writeRun c plains s).2 := by
  intro plains
  induction plains with
  | nil =>
      intro frames s h _
      exact ⟨rfl, by simpa [writeRun, framesOf] using h⟩
  | cons plain plains ih =>
      intro frames s h hne
      obtain ⟨hok, hnext⟩ := doWrite_step hc h (hne plain (by simp))
      have hrest := ih hnext fun x hx => hne x (by simp [hx])
      rw [writeRun]
      rcases hdo : doWrite c plain s with ⟨r, s'⟩
      rw [hdo] at hok hrest
      simp only at hok hrest
      subst hok
      simpa [framesOf, List.append_assoc] using hrest

/-! ## The reader -/

/-- The decryptor's side of a block: it reads back what was sealed under its nonce. -/
theorem readBlock_of_sealed (hc : c.Sound) {s : Shadowsocks} {nonce x t block : Bytes}
    (hcryptor : s.decryptor.cryptor = ⟨m, some key, nonce⟩) (hblock : block.length = x.length)
    (hinput : s.input.all = sealBlock c m key nonce x ++ t) :
    ∃ input : Source UInt8, input.all = t ∧ readBlock c block s = (.ok (), x,
      { s with
        input := input
        decryptor := { s.decryptor with cryptor := ⟨m, some key, sodiumIncrement nonce⟩ } }) := by
  have hlen : block.length + tagSize = (sealBlock c m key nonce x).length := by
    rw [length_sealBlock hc, hblock, tagSize]
  obtain ⟨hread, hrest⟩ := Source.read_append hinput
  refine ⟨_, hrest, ?_⟩
  have hpair : s.input.read (sealBlock c m key nonce x).length
      = (some (sealBlock c m key nonce x), (s.input.read (sealBlock c m key nonce x).length).2) :=
    Prod.ext hread rfl
  rw [readBlock, hlen, hpair]
  have hn : (sealBlock c m key nonce x).length - 16 = (c.encrypt m key nonce x).length := by
    rw [length_sealBlock hc, hc.length_encrypt]
    omega
  have htake : (sealBlock c m key nonce x).take (c.encrypt m key nonce x).length
      = c.encrypt m key nonce x := List.take_left
  have hdrop : (sealBlock c m key nonce x).drop (c.encrypt m key nonce x).length
      = c.tag m key nonce (c.encrypt m key nonce x) := List.drop_left
  simp only [Decryptor.process, Cryptor.decrypt, hcryptor, hn, htake, hdrop,
    hc.decrypt_encrypt, if_true]

/-- At the end of the stream no block can be read. -/
theorem readBlock_of_nil {s : Shadowsocks} (block : Bytes) (hinput : s.input.all = []) :
    ∃ input : Source UInt8, input.all = []
      ∧ readBlock c block s = (.error eof, block, { s with input := input }) := by
  have hlt : s.input.all.length < block.length + tagSize := by
    rw [hinput, tagSize, List.length_nil]
    omega
  obtain ⟨hread, hrest⟩ := Source.read_of_lt hlt
  refine ⟨_, hrest, ?_⟩
  have hpair : s.input.read (block.length + tagSize)
      = (none, (s.input.read (block.length + tagSize)).2) := Prod.ext hread rfl
  rw [readBlock, hpair]

/-- The simulation between a reader and the frames on the wire: the reader has not seen the
salt yet, or it has taken the frames `done` and the rest of the wire continues under its
nonce.  In both cases `delivered` and the cache make up what it has taken. -/
inductive Reading (c : Crypto) (m : CryptoMethod) (pw salt : Bytes) (frames : List Bytes)
    (delivered : Bytes) (s : Shadowsocks) : Prop where
  | fresh (hpw : s.pw = pw) (hcryptor : s.decryptor.cryptor = Cryptor.make m)
      (hsalt : s.decryptor.salt.length = m.keySize) (hcache : s.cache = [])
      (hdelivered : delivered = [])
      (hinput : Sent c m (Cryptor.deriveKey c pw salt) salt frames s.input.all)
  | frames (done rest : List Bytes) (hpw : s.pw = []) (hframes : frames = done ++ rest)
      (hcryptor : s.decryptor.cryptor = ⟨m, some (Cryptor.deriveKey c pw salt),
        nonceAfter (List.replicate m.nonceSize 0) done.length⟩)
      (hdelivered : delivered ++ s.cache = done.flatten)
      (hinput : s.input.all = wire c m (Cryptor.deriveKey c pw salt)
        (nonceAfter (List.replicate m.nonceSize 0) done.length) rest)

/-- The frame at the head of the wire, taken block by block. -/
theorem readBlock_frame (hc : c.Sound) {s : Shadowsocks} {nonce x : Bytes} {xs : List Bytes}
    (hx : x.length ≤ frameSize) (hcryptor : s.decryptor.cryptor = ⟨m, some key, nonce⟩)
    (hinput : s.input.all = wire c m key nonce (x :: xs)) :
    ∃ s₁ : Shadowsocks, readBlock c [0, 0] s = (.ok (), hton (UInt16.ofNat x.length), s₁)
      ∧ s₁.pw = s.pw ∧ s₁.cache = s.cache
      ∧ (ntoh (hton (UInt16.ofNat x.length))).toNat = x.length
      ∧ ∀ (cache block : Bytes), block.length = x.length →
        ∃ s₂ : Shadowsocks, readBlock c block { s₁ with cache := cache } = (.ok (), x, s₂)
          ∧ s₂.pw = s.pw ∧ s₂.cache = cache
          ∧ s₂.decryptor.cryptor = ⟨m, some key, sodiumIncrement (sodiumIncrement nonce)⟩
          ∧ s₂.input.all = wire c m key (sodiumIncrement (sodiumIncrement nonce)) xs := by
  rw [wire, List.append_assoc] at hinput
  have hlb : ([0, 0] : Bytes).length = (hton (UInt16.ofNat x.length)).length := rfl
  obtain ⟨input₁, hall₁, hread₁⟩ := readBlock_of_sealed hc hcryptor hlb hinput
  refine ⟨_, hread₁, rfl, rfl, ?_, fun cache block hblock => ?_⟩
  · have hntoh := ntoh_hton_append (UInt16.ofNat x.length) []
    rw [List.append_nil] at hntoh
    rw [hntoh, UInt16.toNat_ofNat']
    have : frameSize < 2 ^ 16 := by decide
    omega
  · obtain ⟨input₂, hall₂, hread₂⟩ := readBlock_of_sealed (s := { s with
      cache := cache, input := input₁, decryptor := { s.decryptor with
        cryptor := ⟨m, some key, sodiumIncrement nonce⟩ } }) hc rfl hblock hall₁
    exact ⟨_, hread₂, rfl, rfl, rfl, hall₂⟩

/-- The memory of a block has the size of the block. -/
theorem length_block (env : ReadEnv) (n : ℕ) : (env.block n).length = n := by
  rw [ReadEnv.block, List.length_take, List.length_append, List.length_replicate]
  omega

/-- What one call of `do_read` does to a reader that simulates the wire: it delivers a part
of the frames and goes on simulating, or it finds the stream at its end with everything
delivered. -/
def ReadStep (c : Crypto) (m : CryptoMethod) (pw salt : Bytes) (frames : List Bytes)
    (delivered : Bytes) (size : ℕ) (r : Result Bytes × Shadowsocks) : Prop :=
  (∃ got, r.1 = .ok got ∧ got ≠ [] ∧ got.length ≤ size
      ∧ Reading c m pw salt frames (delivered ++ got) r.2)
    ∨ (r.1 = .error eof ∧ delivered = frames.flatten ∧ Reading c m pw salt frames delivered r.2)

section ReadStep

variable {pw salt : Bytes} {frames done rest : List Bytes} {delivered : Bytes} {size : ℕ}
  {env : ReadEnv} {s : Shadowsocks}

/-- A read from the cache. -/
theorem readStep_cache (hsize : 0 < size) (hpw : s.pw = []) (hcache : s.cache ≠ [])
    (hframes : frames = done ++ rest)
    (hcryptor : s.decryptor.cryptor = ⟨m, some (Cryptor.deriveKey c pw salt),
      nonceAfter (List.replicate m.nonceSize 0) done.length⟩)
    (hdelivered : delivered ++ s.cache = done.flatten)
    (hinput : s.input.all = wire c m (Cryptor.deriveKey c pw salt)
      (nonceAfter (List.replicate m.nonceSize 0) done.length) rest) :
    ReadStep c m pw salt frames delivered size (doRead c env size s) := by
  have hread : doRead c env size s
      = (.ok (s.cache.take size), { s with cache := s.cache.drop size }) := by
    simp [doRead, hpw, hcache]
  rw [hread]
  refine Or.inl ⟨s.cache.take size, rfl, ?_, List.length_take_le _ _, ?_⟩
  · rw [ne_eq, List.take_eq_nil_iff, not_or]
    exact ⟨by omega, hcache⟩
  · refine .frames done rest hpw hframes hcryptor ?_ hinput
    rw [List.append_assoc, List.take_append_drop, hdelivered]

/-- A read of the next frame, directly or through the cache. -/
theorem readStep_frame (hc : c.Sound) (hsize : 0 < size) {x : Bytes} {xs : List Bytes}
    (hx : x ≠ [] ∧ x.length ≤ frameSize) (hpw : s.pw = []) (hcache : s.cache = [])
    (hframes : frames = done ++ x :: xs)
    (hcryptor : s.decryptor.cryptor = ⟨m, some (Cryptor.deriveKey c pw salt),
      nonceAfter (List.replicate m.nonceSize 0) done.length⟩)
    (hdelivered : delivered = done.flatten)
    (hinput : s.input.all = wire c m (Cryptor.deriveKey c pw salt)
      (nonceAfter (List.replicate m.nonceSize 0) done.length) (x :: xs)) :
    ReadStep c m pw salt frames delivered size (doRead c env size s) := by
  obtain ⟨s₁, hread₁, hpw₁, hcache₁, hlen, hnext⟩ := readBlock_frame hc hx.2 hcryptor hinput
  have hdone : ∀ (got : Bytes) (s₂ : Shadowsocks), got ++ s₂.cache = x → s₂.pw = [] →
      s₂.decryptor.cryptor = ⟨m, some (Cryptor.deriveKey c pw salt), sodiumIncrement
        (sodiumIncrement (nonceAfter (List.replicate m.nonceSize 0) done.length))⟩ →
      s₂.input.all = wire c m (Cryptor.deriveKey c pw salt) (sodiumIncrement
        (sodiumIncrement (nonceAfter (List.replicate m.nonceSize 0) done.length))) xs →
      Reading c m pw salt frames (delivered ++ got) s₂ := by
    intro got s₂ hgot hpw₂ hcryptor₂ hinput₂
    refine .frames (done ++ [x]) xs hpw₂ (by simp [hframes]) ?_ ?_ ?_
    · rw [List.length_append, List.length_singleton, nonceAfter_succ', hcryptor₂]
    · rw [List.append_assoc, hgot, hdelivered]
      simp
    · rw [List.length_append, List.length_singleton, nonceAfter_succ', hinput₂]
  have hblock : (env.block x.length).length = x.length := length_block env _
  -- the frame goes into the caller's buffer, or into the cache and from there in parts
  by_cases hfits : x.length ≤ size
  · obtain ⟨s₂, hread₂, hpw₂, hcache₂, hcryptor₂, hinput₂⟩ := hnext s₁.cache _ hblock
    have hread : doRead c env size s = (.ok x, s₂) := by
      simp [doRead, hpw, hcache, hread₁, hlen, hx.2, hfits, hread₂]
    rw [hread]
    refine Or.inl ⟨x, rfl, hx.1, hfits, hdone x s₂ ?_ (hpw₂.trans hpw) hcryptor₂ hinput₂⟩
    rw [hcache₂, hcache₁, hcache, List.append_nil]
  · obtain ⟨s₂, hread₂, hpw₂, -, hcryptor₂, hinput₂⟩ := hnext (env.block x.length) _ hblock
    have hread : doRead c env size s = (.ok (x.take size), { s₂ with cache := x.drop size }) := by
      simp [doRead, hpw, hcache, hread₁, hlen, hx.2, hfits, hread₂]
    rw [hread]
    refine Or.inl ⟨x.take size, rfl, ?_, List.length_take_le _ _,
      hdone _ _ (List.take_append_drop _ _) (hpw₂.trans hpw) hcryptor₂ hinput₂⟩
    rw [ne_eq, List.take_eq_nil_iff, not_or]
    exact ⟨by omega, hx.1⟩

/-- A read with the salt known: from the cache, of the next frame, or at the end. -/
theorem readStep_frames (hc : c.Sound) (hsize : 0 < size)
    (hne : ∀ x ∈ frames, x ≠ [] ∧ x.length ≤ frameSize) (hpw : s.pw = [])
    (hframes : frames = done ++ rest)
    (hcryptor : s.decryptor.cryptor = ⟨m, some (Cryptor.deriveKey c pw salt),
      nonceAfter (List.replicate m.nonceSize 0) done.length⟩)
    (hdelivered : delivered ++ s.cache = done.flatten)
    (hinput : s.input.all = wire c m (Cryptor.deriveKey c pw salt)
      (nonceAfter (List.replicate m.nonceSize 0) done.length) rest) :
    ReadStep c m pw salt frames delivered size (doRead c env size s) := by
  by_cases hcache : s.cache = []
  · rw [hcache, List.append_nil] at hdelivered
    cases rest with
    | cons x xs =>
        exact readStep_frame hc hsize (hne x (by simp [hframes])) hpw hcache hframes hcryptor
          hdelivered hinput
    | nil =>
        obtain ⟨input, hall, hread⟩ := readBlock_of_nil (c := c) [0, 0] hinput
        have hdo : doRead c env size s = (.error eof, { s with input := input }) := by
          simp [doRead, hpw, hcache, hread]
        rw [hdo]
        refine Or.inr ⟨rfl, by simpa [hframes] using hdelivered, ?_⟩
        exact .frames done [] hpw hframes hcryptor (by simpa [hcache] using hdelivered) hall
  · exact readStep_cache hsize hpw hcache hframes hcryptor hdelivered hinput

/-- **One call of `do_read`**, for any size of the buffer. -/
theorem doRead_step (hc : c.Sound) (hpw : pw ≠ []) (hsalt : salt.length = m.keySize)
    (hne : ∀ x ∈ frames, x ≠ [] ∧ x.length ≤ frameSize)
    (h : Reading c m pw salt frames delivered s) (hsize : 0 < size)
    (henv : env.replayed = false) :
    ReadStep c m pw salt frames delivered size (doRead c env size s) := by
  cases h with
  | frames done rest hpw' hframes hcryptor hdelivered hinput =>
      exact readStep_frames hc hsize hne hpw' hframes hcryptor hdelivered hinput
  | fresh hpw' hcryptor hlen hcache hdelivered hinput =>
      rcases hinput with ⟨hnil, hframes⟩ | hinput
      · -- nothing was sent: the read of the salt hits the end of the stream
        have hlt : s.input.all.length < s.decryptor.salt.length := by
          rw [hnil, hlen, List.length_nil]
          cases m <;> decide
        obtain ⟨hread, hrest⟩ := Source.read_of_lt hlt
        have hpair : s.input.read s.decryptor.salt.length
            = (none, (s.input.read s.decryptor.salt.length).2) := Prod.ext hread rfl
        have hdo : doRead c env size s
            = (.error eof, { s with input := (s.input.read s.decryptor.salt.length).2 }) := by
          rw [doRead, readSalt, hpair]
          simp [hpw', hpw]
        rw [hdo]
        refine Or.inr ⟨rfl, by simp [hdelivered, hframes], ?_⟩
        exact .fresh hpw' hcryptor hlen hcache hdelivered (Or.inl ⟨hrest, hframes⟩)
      · -- the salt is read, and the key it gives is the writer's
        have hlen' : s.decryptor.salt.length = salt.length := by rw [hlen, hsalt]
        obtain ⟨hread, hrest⟩ := Source.read_append hinput
        have hpair : s.input.read s.decryptor.salt.length
            = (some salt, (s.input.read salt.length).2) := by
          rw [hlen']
          exact Prod.ext hread rfl
        have hdo : doRead c env size s = doRead c env size { s with
            input := (s.input.read salt.length).2
            decryptor := (Decryptor.mk s.decryptor.cryptor salt).setPsk c s.pw
            pw := [] } := by
          conv_lhs => rw [doRead, readSalt, hpair]
          conv_rhs => rw [doRead]
          simp [hpw', hpw, henv]
        rw [hdo]
        have hnone : frames = [] ++ frames := rfl
        refine readStep_frames hc hsize hne rfl hnone ?_ (by simp [hdelivered, hcache]) hrest
        simp [Decryptor.setPsk, Cryptor.setPsk, hcryptor, Cryptor.make, hpw']

end ReadStep

/-! ## Runs of reads -/

/-- Several calls of `do_read` in a row, each with its surroundings and the size of its
buffer, going on after a failure. -/
def readRun (c : Crypto) : List (ReadEnv × ℕ) → Shadowsocks → List (Result Bytes) × Shadowsocks
  | [], s => ([], s)
  | read :: reads, s =>
    let r := doRead c read.1 read.2 s
    let rs := readRun c reads r.2
    (r.1 :: rs.1, rs.2)

/-- The bytes a sequence of calls returned. -/
def delivered (results : List (Result Bytes)) : Bytes :=
  results.flatMap fun
    | .ok got => got
    | .error _ => []

/-- The bytes a call returned. -/
def got : Result Bytes → Bytes
  | .ok bytes => bytes
  | .error _ => []

theorem delivered_cons (read : ReadEnv × ℕ) (reads : List (ReadEnv × ℕ)) (s : Shadowsocks) :
    delivered (readRun c (read :: reads) s).1
      = got (doRead c read.1 read.2 s).1
        ++ delivered (readRun c reads (doRead c read.1 read.2 s).2).1 := by
  rw [readRun, delivered, List.flatMap_cons]
  congr 1

section Runs

variable {pw salt : Bytes} {frames : List Bytes} {d : Bytes} {s : Shadowsocks}

/-- What has been delivered is the beginning of what is on the wire. -/
theorem Reading.isPrefix (h : Reading c m pw salt frames d s) : d <+: frames.flatten := by
  cases h with
  | fresh hpw hcryptor hsalt hcache hdelivered hinput =>
      rw [hdelivered]
      exact List.nil_prefix
  | frames done rest hpw hframes hcryptor hdelivered hinput =>
      rw [hframes, List.flatten_append, ← hdelivered, List.append_assoc]
      exact List.prefix_append _ _

theorem wire_eq_nil_iff (hc : c.Sound) {nonce : Bytes} {xs : List Bytes} :
    wire c m key nonce xs = [] ↔ xs = [] := by
  cases xs with
  | nil => simp [wire]
  | cons x xs =>
      have hlen : (sealBlock c m key nonce (hton (UInt16.ofNat x.length))).length = 2 + 16 :=
        length_sealBlock hc nonce _
      simp only [wire, List.append_eq_nil_iff, reduceCtorEq, iff_false, not_and]
      intro hnil
      rw [hnil.1] at hlen
      simp at hlen

/-- **A run of reads** of any sizes goes on simulating; calls deliver something until
everything is delivered, and then report the end of the stream. -/
theorem readRun_spec (hc : c.Sound) (hpw : pw ≠ []) (hsalt : salt.length = m.keySize)
    (hne : ∀ x ∈ frames, x ≠ [] ∧ x.length ≤ frameSize) :
    ∀ (reads : List (ReadEnv × ℕ)) {d : Bytes} {s : Shadowsocks},
      Reading c m pw salt frames d s → (∀ r ∈ reads, 0 < r.2 ∧ r.1.replayed = false) →
      Reading c m pw salt frames (d ++ delivered (readRun c reads s).1) (readRun c reads s).2
        ∧ (∀ f, .error f ∈ (readRun c reads s).1 →
          f = eof ∧ d ++ delivered (readRun c reads s).1 = frames.flatten)
        ∧ (reads.length ≤ (delivered (readRun c reads s).1).length
          ∨ d ++ delivered (readRun c reads s).1 = frames.flatten) := by
  intro reads
  induction reads with
  | nil => intro d s h _; simp [readRun, delivered, h]
  | cons read reads ih =>
      intro d s h hreads
      obtain ⟨hsize, henv⟩ := hreads read (by simp)
      have hrest := fun x hx => hreads x (List.mem_cons_of_mem _ hx)
      rcases doRead_step hc hpw hsalt hne h hsize henv with
        ⟨got, hgot, hgotne, -, hnext⟩ | ⟨heof, hall, hnext⟩
      · obtain ⟨hreading, herror, hprogress⟩ := ih hnext hrest
        have hdelivered : delivered (readRun c (read :: reads) s).1
            = got ++ delivered (readRun c reads (doRead c read.1 read.2 s).2).1 := by
          simp [readRun, delivered, hgot]
        rw [hdelivered, ← List.append_assoc]
        refine ⟨hreading, fun f hf => ?_, ?_⟩
        · rw [readRun, hgot] at hf
          rcases List.mem_cons.mp hf with hf | hf
          · cases hf
          · exact herror f hf
        · rcases hprogress with hlen | hall
          · left
            have hpos := List.length_pos_of_ne_nil hgotne
            rw [List.length_cons, List.length_append]
            omega
          · exact Or.inr hall
      · obtain ⟨hreading, herror, hprogress⟩ := ih hnext hrest
        have hdelivered : delivered (readRun c (read :: reads) s).1
            = delivered (readRun c reads (doRead c read.1 read.2 s).2).1 := by
          simp [readRun, delivered, heof]
        -- everything is delivered, so the calls after this one deliver nothing
        have hnil : delivered (readRun c reads (doRead c read.1 read.2 s).2).1 = [] := by
          have hpre := hreading.isPrefix.length_le
          rw [← hall, List.length_append] at hpre
          exact List.length_eq_zero_iff.mp (by omega)
        rw [hdelivered]
        refine ⟨hreading, fun f hf => ?_, Or.inr (by rw [hnil, List.append_nil, hall])⟩
        rw [readRun, heof] at hf
        rcases List.mem_cons.mp hf with hf | hf
        · cases hf
          exact ⟨rfl, by rw [hnil, List.append_nil, hall]⟩
        · exact herror f hf

/-- A reader in front of what a writer has sent. -/
theorem reading_make {own : Bytes} {sentry : Bool} {src : Source UInt8} {output : Sink UInt8}
    (hsrc : Sent c m (Cryptor.deriveKey c pw salt) salt frames src.all) :
    Reading c m pw salt frames [] (make c m pw own sentry src output) :=
  .fresh rfl rfl (by simp [make, Decryptor.make]) rfl rfl hsrc

/-- With more calls than bytes on the wire, everything is delivered. -/
theorem delivered_of_enough (hc : c.Sound) (hpw : pw ≠ []) (hsalt : salt.length = m.keySize)
    (hne : ∀ x ∈ frames, x ≠ [] ∧ x.length ≤ frameSize) {reads : List (ReadEnv × ℕ)}
    (h : Reading c m pw salt frames [] s) (hreads : ∀ r ∈ reads, 0 < r.2 ∧ r.1.replayed = false)
    (henough : frames.flatten.length < reads.length) :
    delivered (readRun c reads s).1 = frames.flatten := by
  obtain ⟨hreading, -, hprogress⟩ := readRun_spec hc hpw hsalt hne reads h hreads
  rw [List.nil_append] at hreading hprogress
  rcases hprogress with hlen | hall
  · have hpre := hreading.isPrefix.length_le
    omega
  · exact hall

end Runs

/-! ## The round trip -/

/-- **The Shadowsocks round trip.**  Whatever non-empty buffers are written on one side and
whatever sizes are read with on the other, over any segmentation of the socket: what is
read is the beginning of what was written; it is all of it once the ciphertext is used up
and the cache is handed out, and in any case when a call fails, which it only does by the
end of the stream, or when there were more calls than bytes; and after `k` frames the
nonces of both sides are the same: the rest of the wire is sealed under the reader's nonce
(or the salt is still ahead of it). -/
theorem shadowsocks_round_trip (hc : c.Sound) {pw salt own : Bytes} (hpw : pw ≠ [])
    (hsalt : salt.length = m.keySize) {plains : List Bytes}
    (hplains : ∀ plain ∈ plains, plain ≠ []) {sentry sentry' : Bool} {input src : Source UInt8}
    {output : Sink UInt8} {writer reader : Shadowsocks}
    (hwriter : writer = make c m pw salt sentry input Sink.healthy)
    (hsrc : src.all = (writeRun c plains writer).2.output.sent)
    (hreader : reader = make c m pw own sentry' src output) {reads : List (ReadEnv × ℕ)}
    (hreads : ∀ r ∈ reads, 0 < r.2 ∧ r.1.replayed = false) :
    (writeRun c plains writer).1 = .ok ()
      ∧ delivered (readRun c reads reader).1 <+: plains.flatten
      ∧ ((readRun c reads reader).2.input.all = [] →
        delivered (readRun c reads reader).1 ++ (readRun c reads reader).2.cache
          = plains.flatten)
      ∧ (∀ f, .error f ∈ (readRun c reads reader).1 →
        f = eof ∧ delivered (readRun c reads reader).1 = plains.flatten)
      ∧ (plains.flatten.length < reads.length →
        delivered (readRun c reads reader).1 = plains.flatten)
      ∧ (writeRun c plains writer).2.encryptor.cryptor.nonce
        = nonceAfter (List.replicate m.nonceSize 0) (framesOf plains).length
      ∧ ∃ k ≤ (framesOf plains).length,
        (readRun c reads reader).2.decryptor.cryptor.nonce
            = nonceAfter (List.replicate m.nonceSize 0) k
          ∧ delivered (readRun c reads reader).1 ++ (readRun c reads reader).2.cache
            = ((framesOf plains).take k).flatten
          ∧ ((readRun c reads reader).2.input.all = wire c m (Cryptor.deriveKey c pw salt)
              (nonceAfter (List.replicate m.nonceSize 0) k) ((framesOf plains).drop k)
            ∨ k = 0 ∧ Sent c m (Cryptor.deriveKey c pw salt) salt (framesOf plains)
              (readRun c reads reader).2.input.all) := by
  subst hwriter hreader
  obtain ⟨hok, hwritten⟩ := writeRun_spec (m := m) hc plains (written_make pw salt sentry input)
    hplains
  rw [List.nil_append] at hwritten
  have hne : ∀ x ∈ framesOf plains, x ≠ [] ∧ x.length ≤ frameSize := of_mem_framesOf
  have hsent : Sent c m (Cryptor.deriveKey c pw salt) salt (framesOf plains) src.all := by
    rw [hsrc]
    exact hwritten.sent
  have hinit : Reading c m pw salt (framesOf plains) [] (make c m pw own sentry' src output) :=
    reading_make hsent
  obtain ⟨hreading, herror, -⟩ := readRun_spec hc hpw hsalt hne reads hinit hreads
  have hflat := flatten_framesOf plains
  rw [List.nil_append] at hreading herror
  refine ⟨hok, hflat ▸ hreading.isPrefix, fun hnil => ?_, fun f hf => ?_, fun henough => ?_,
    by rw [hwritten.cryptor], ?_⟩
  · cases hreading with
    | fresh hpw' hcryptor hlen hcache hdelivered hinput =>
        rcases hinput with ⟨-, hframes⟩ | hinput
        · rw [hdelivered, hcache, ← hflat, hframes]
          rfl
        · rw [hnil] at hinput
          have hsaltnil : salt = [] := (List.append_eq_nil_iff.mp hinput.symm).1
          rw [hsaltnil] at hsalt
          exact absurd hsalt (by cases m <;> decide)
    | frames done rest hpw' hframes hcryptor hdelivered hinput =>
        rw [hnil] at hinput
        have hrest := (wire_eq_nil_iff hc).mp hinput.symm
        rw [hdelivered, ← hflat, hframes, hrest, List.append_nil]
  · rw [← hflat]
    exact herror f hf
  · rw [← hflat] at henough ⊢
    exact delivered_of_enough hc hpw hsalt hne hinit hreads henough
  · cases hreading with
    | fresh hpw' hcryptor hlen hcache hdelivered hinput =>
        exact ⟨0, Nat.zero_le _, by rw [hcryptor]; rfl, by simp [hdelivered, hcache],
          Or.inr ⟨rfl, hinput⟩⟩
    | frames done rest hpw' hframes hcryptor hdelivered hinput =>
        refine ⟨done.length, by simp [hframes], by rw [hcryptor], ?_, Or.inl ?_⟩
        · rw [hdelivered, hframes, List.take_left]
        · rw [hinput, hframes, List.drop_left]

/-- Two buffers, read three bytes at a time. -/
theorem shadowsocks_round_trip_example :
    ∃ src : Source UInt8,
      src.all = (writeRun Reference.crypto [lit "hello ", lit "world"] (make Reference.crypto
        .aes128Gcm (lit "pw") (List.replicate 16 7) false Source.ended Sink.healthy)).2.output.sent
      ∧ delivered (readRun Reference.crypto (List.replicate 12 ({}, 3)) (make Reference.crypto
        .aes128Gcm (lit "pw") [] true src Sink.healthy)).1 = lit "hello world" := by
  obtain ⟨src, hsrc⟩ := Source.exists_all_eq (writeRun Reference.crypto [lit "hello ", lit "world"]
    (make Reference.crypto .aes128Gcm (lit "pw") (List.replicate 16 7) false Source.ended
      Sink.healthy)).2.output.sent
  have hpw : lit "pw" ≠ [] := by decide
  have hsalt : (List.replicate 16 (7 : UInt8)).length = CryptoMethod.aes128Gcm.keySize := rfl
  have hplains : ∀ plain ∈ [lit "hello ", lit "world"], plain ≠ [] := by decide
  have hreads : ∀ r ∈ List.replicate 12 (({}, 3) : ReadEnv × ℕ),
      0 < r.2 ∧ r.1.replayed = false := by
    intro r hr
    rw [List.eq_of_mem_replicate hr]
    exact ⟨by omega, rfl⟩
  obtain ⟨-, -, -, -, henough, -⟩ := shadowsocks_round_trip Reference.crypto_sound hpw hsalt
    hplains rfl hsrc (rfl : make Reference.crypto .aes128Gcm (lit "pw") [] true src Sink.healthy
      = make Reference.crypto .aes128Gcm (lit "pw") [] true src Sink.healthy) hreads
  exact ⟨src, hsrc, henough (by decide)⟩

/-! ## The composed write -/

/-- A peer that reads what is on the socket, with more calls than there are bytes, gets
exactly `plain`: in any segmentation and with any sizes of its buffers. -/
def Transmits (c : Crypto) (m : CryptoMethod) (pw sent plain : Bytes) : Prop :=
  ∀ (src : Source UInt8) (own : Bytes) (sentry : Bool) (output : Sink UInt8)
    (reads : List (ReadEnv × ℕ)), src.all = sent →
    (∀ r ∈ reads, 0 < r.2 ∧ r.1.replayed = false) → plain.length < reads.length →
    delivered (readRun c reads (make c m pw own sentry src output)).1 = plain

section Write

variable {pw salt : Bytes} {frames : List Bytes} {s : Shadowsocks}

/-- What is transmitted is what the frames on the wire hold. -/
theorem transmits_iff (hc : c.Sound) (hpw : pw ≠ []) (hsalt : salt.length = m.keySize)
    (hne : ∀ x ∈ frames, x ≠ [] ∧ x.length ≤ frameSize) {sent plain : Bytes}
    (hsent : Sent c m (Cryptor.deriveKey c pw salt) salt frames sent)
    (hle : frames.flatten.length ≤ plain.length) :
    Transmits c m pw sent plain ↔ frames.flatten = plain := by
  have hread : ∀ (src : Source UInt8) (own : Bytes) (sentry : Bool) (output : Sink UInt8)
      (reads : List (ReadEnv × ℕ)), src.all = sent →
      (∀ r ∈ reads, 0 < r.2 ∧ r.1.replayed = false) → plain.length < reads.length →
      delivered (readRun c reads (make c m pw own sentry src output)).1 = frames.flatten := by
    intro src own sentry output reads hsrc hreads henough
    exact delivered_of_enough hc hpw hsalt hne (reading_make (hsrc ▸ hsent)) hreads (by omega)
  constructor
  · intro h
    -- a peer that reads byte by byte
    obtain ⟨src, hsrc⟩ := Source.exists_all_eq sent
    have hreads : ∀ r ∈ List.replicate (plain.length + 1) (({}, 1) : ReadEnv × ℕ),
        0 < r.2 ∧ r.1.replayed = false := by
      intro r hr
      rw [List.eq_of_mem_replicate hr]
      exact ⟨Nat.one_pos, rfl⟩
    have henough : plain.length
        < (List.replicate (plain.length + 1) (({}, 1) : ReadEnv × ℕ)).length := by simp
    rw [← hread src [] false Sink.healthy _ hsrc hreads henough]
    exact h src [] false Sink.healthy _ hsrc hreads henough
  · intro hflat src own sentry output reads hsrc hreads henough
    rw [← hflat]
    exact hread src own sentry output reads hsrc hreads henough

/-- One call of `do_write` with nothing to write. -/
theorem doWrite_nil (h : Written c m key salt frames s) :
    (doWrite c [] s).1 = .ok 0 ∧ Sent c m key salt frames (doWrite c [] s).2.output.sent := by
  have hloop : ∀ s, writeFrames c [] 0 s = (.ok 0, s) := by
    intro s
    rw [writeFrames, dif_pos rfl]
  rcases h.stage with ⟨hsalt, hout, hframes⟩ | ⟨hsalt, hout⟩
  · by_cases hempty : salt = []
    · have hdo : doWrite c [] s = (.ok 0, s) := by simp [doWrite, hsalt, hempty, hloop]
      rw [hdo]
      exact ⟨rfl, Or.inl ⟨hout, hframes⟩⟩
    · have hdo : doWrite c [] s = (.ok 0, { s with output := ⟨salt, none⟩ }) := by
        simp [doWrite, hsalt, hempty, writeSalt, Sink.write_of_healthy h.room, hout, hloop]
      rw [hdo]
      exact ⟨rfl, Or.inr (by simp [hframes, wire])⟩
  · have hdo : doWrite c [] s = (.ok 0, s) := by simp [doWrite, hsalt, hloop]
    rw [hdo]
    exact ⟨rfl, Or.inr hout⟩

/-- The first call the composed write makes. -/
theorem writeAll_doWrite {buf : Bytes} {k : ℕ} {s s' : Shadowsocks}
    (h : doWrite c (buf.take 65536) s = (.ok k, s')) :
    write c buf s = if k = 0 ∨ buf.length ≤ k then (.ok (), s') else write c (buf.drop k) s' :=
  Transfer.writeAll_of_ok h

/-- The composed write of nothing. -/
theorem write_nil (h : Written c m key salt frames s) :
    Sent c m key salt frames (write c [] s).2.output.sent := by
  obtain ⟨hok, hsent⟩ := doWrite_nil h
  rcases hdo : doWrite c [] s with ⟨r, s'⟩
  rw [hdo] at hok hsent
  simp only at hok hsent
  subst hok
  rw [writeAll_doWrite (by simpa using hdo)]
  exact hsent

/-- The composed write of something, after its first call: that call writes the frames of
the first 65536 bytes, and the rest of the buffer is taken from where its count points. -/
theorem write_first (hc : c.Sound) (h : Written c m key salt frames s) {buf : Bytes}
    (hbuf : buf ≠ []) :
    ∃ s', Written c m key salt (frames ++ chunks frameSize (buf.take 65536)) s' ∧
      write c buf s
        = if buf.length ≤ (buf.take 65536).length
              + 34 * (chunks frameSize (buf.take 65536)).length then (.ok (), s')
          else write c (buf.drop ((buf.take 65536).length
            + 34 * (chunks frameSize (buf.take 65536)).length)) s' := by
  have htake : buf.take 65536 ≠ [] := by
    rw [ne_eq, List.take_eq_nil_iff, not_or]
    exact ⟨by decide, hbuf⟩
  have hpos := List.length_pos_of_ne_nil htake
  obtain ⟨hok, hnext⟩ := doWrite_step hc h htake
  rcases hdo : doWrite c (buf.take 65536) s with ⟨r, s'⟩
  rw [hdo] at hok hnext
  simp only at hok hnext
  subst hok
  refine ⟨s', hnext, ?_⟩
  rw [writeAll_doWrite hdo]
  congr 1
  rw [eq_iff_iff]
  omega

/-- 65536 bytes are five frames. -/
theorem length_chunks_take {buf : Bytes} (hlt : 65536 < buf.length) :
    (buf.take 65536).length = 65536 ∧ (chunks frameSize (buf.take 65536)).length = 5 := by
  have hlen : (buf.take 65536).length = 65536 := by
    rw [List.length_take]
    omega
  refine ⟨hlen, ?_⟩
  rw [Transfer.length_chunks (by decide), hlen]
  decide

/-- **The composed write.**  It advances by the bytes of ciphertext, so that it transmits
the whole of a buffer that fits into one call and drops bytes of any other. -/
theorem write_spec (hc : c.Sound) (buf : Bytes) (h : Written c m key salt frames s) :
    ∃ more, Sent c m key salt (frames ++ more) (write c buf s).2.output.sent
      ∧ (∀ x ∈ more, x ≠ [] ∧ x.length ≤ frameSize)
      ∧ (buf.length ≤ 65536 → more.flatten = buf)
      ∧ (65536 < buf.length → more.flatten.length < buf.length) := by
  have hfs : 0 < frameSize := by decide
  -- the calls get shorter and shorter rests of the buffer
  induction hn : buf.length using Nat.strongRecOn generalizing buf frames s with
  | ind n ih =>
      subst hn
      by_cases hbuf : buf = []
      · subst hbuf
        refine ⟨[], ?_, by simp, by simp, by simp⟩
        rw [List.append_nil]
        exact write_nil h
      · obtain ⟨s', hnext, hwrite⟩ := write_first hc h hbuf
        have hflat := Transfer.flatten_chunks hfs (buf.take 65536)
        have hmem := Transfer.of_mem_chunks hfs (buf.take 65536)
        by_cases hle : buf.length ≤ 65536
        · -- one call: the count it reports is at least the length of the buffer
          rw [List.take_of_length_le hle] at hflat hmem hnext hwrite
          rw [if_pos (by omega)] at hwrite
          refine ⟨chunks frameSize buf, ?_, hmem, fun _ => hflat, fun hgt => by omega⟩
          rw [hwrite]
          exact hnext.sent
        · -- the first call takes 65536 bytes in five frames and reports 65706
          obtain ⟨hlen, hcount⟩ := length_chunks_take (not_le.mp hle)
          rw [hlen, hcount] at hwrite
          by_cases hend : buf.length ≤ 65706
          -- the rest is shorter than the excess: it is counted as written and dropped
          · rw [if_pos hend] at hwrite
            refine ⟨chunks frameSize (buf.take 65536), ?_, hmem, fun h => absurd h hle, fun _ => ?_⟩
            · rw [hwrite]
              exact hnext.sent
            · rw [hflat]
              omega
          -- 170 bytes are skipped, and the next call starts behind them
          · rw [if_neg hend] at hwrite
            have hdrop : (buf.drop 65706).length = buf.length - 65706 := List.length_drop
            obtain ⟨more, hsent, hmore, hsmall, hlarge⟩ := ih _ (by omega) _ hnext hdrop
            refine ⟨chunks frameSize (buf.take 65536) ++ more, ?_, ?_, fun h => absurd h hle,
              fun _ => ?_⟩
            · rw [hwrite, ← List.append_assoc]
              exact hsent
            · exact fun x hx => (List.mem_append.mp hx).elim (hmem x) (hmore x)
            · rw [List.flatten_append, List.length_append, hflat, hlen]
              by_cases hrest : buf.length - 65706 ≤ 65536
              · rw [hsmall hrest, hdrop]
                omega
              · have hless := hlarge (by omega)
                omega

/-- The frames after some writes and a composed write. -/
theorem write_after_writes (hc : c.Sound) (m : CryptoMethod) (pw salt : Bytes)
    {plains : List Bytes} (hplains : ∀ plain ∈ plains, plain ≠ []) (buf : Bytes) (sentry : Bool)
    (input : Source UInt8) :
    ∃ frames, Sent c m (Cryptor.deriveKey c pw salt) salt frames (write c buf (writeRun c plains
          (make c m pw salt sentry input Sink.healthy)).2).2.output.sent
      ∧ (∀ x ∈ frames, x ≠ [] ∧ x.length ≤ frameSize)
      ∧ (buf.length ≤ 65536 → frames.flatten = plains.flatten ++ buf)
      ∧ (65536 < buf.length → frames.flatten.length < (plains.flatten ++ buf).length) := by
  obtain ⟨-, hwritten⟩ := writeRun_spec (m := m) hc plains (written_make pw salt sentry input)
    hplains
  rw [List.nil_append] at hwritten
  obtain ⟨more, hsent, hmore, hsmall, hlarge⟩ := write_spec hc buf hwritten
  refine ⟨framesOf plains ++ more, hsent, fun x hx => ?_, fun hle => ?_, fun hlt => ?_⟩
  · rcases List.mem_append.mp hx with hx | hx
    · exact of_mem_framesOf x hx
    · exact hmore x hx
  · rw [List.flatten_append, flatten_framesOf, hsmall hle]
  · rw [List.flatten_append, flatten_framesOf, List.length_append, List.length_append]
    have hless := hlarge hlt
    omega

/-- A buffer that does not fit into one call is not transmitted. -/
theorem not_transmits (hc : c.Sound) (hpw : pw ≠ []) (hsalt : salt.length = m.keySize)
    {plains : List Bytes} (hplains : ∀ plain ∈ plains, plain ≠ []) {buf : Bytes} (sentry : Bool)
    (input : Source UInt8) (hlt : 65536 < buf.length) :
    ¬Transmits c m pw (write c buf (writeRun c plains
      (make c m pw salt sentry input Sink.healthy)).2).2.output.sent (plains.flatten ++ buf) := by
  obtain ⟨frames, hsent, hne, -, hlarge⟩ :=
    write_after_writes hc m pw salt hplains buf sentry input
  have hless := hlarge hlt
  intro h
  rw [transmits_iff hc hpw hsalt hne hsent (by omega)] at h
  rw [h] at hless
  omega

end Write

/-- **Which buffers `stream::write` transmits.**  On a stream on which some non-empty buffers
have been written, the peer gets exactly what was written before and then the whole buffer
if and only if that has at most 65536 bytes. -/
theorem write_transmits_iff (hc : c.Sound) {pw salt : Bytes} (hpw : pw ≠ [])
    (hsalt : salt.length = m.keySize) {plains : List Bytes}
    (hplains : ∀ plain ∈ plains, plain ≠ []) (buf : Bytes) (sentry : Bool)
    (input : Source UInt8) :
    Transmits c m pw (write c buf (writeRun c plains
        (make c m pw salt sentry input Sink.healthy)).2).2.output.sent (plains.flatten ++ buf)
      ↔ buf.length ≤ 65536 := by
  constructor
  · intro h
    by_contra hlt
    exact not_transmits hc hpw hsalt hplains sentry input (by omega) h
  · intro hle
    obtain ⟨frames, hsent, hne, hsmall, -⟩ :=
      write_after_writes hc m pw salt hplains buf sentry input
    have hflat := hsmall hle
    exact (transmits_iff hc hpw hsalt hne hsent (by rw [hflat])).mpr hflat

theorem write_transmits_example :
    Transmits Reference.crypto .aes256Gcm (lit "pw") (write Reference.crypto (lit "hello")
      (writeRun Reference.crypto [] (make Reference.crypto .aes256Gcm (lit "pw")
        (List.replicate 32 7) false Source.ended Sink.healthy)).2).2.output.sent (lit "hello") := by
  have hpw : lit "pw" ≠ [] := by decide
  have hsalt : (List.replicate 32 (7 : UInt8)).length = CryptoMethod.aes256Gcm.keySize := rfl
  have hplains : ∀ plain ∈ ([] : List Bytes), plain ≠ [] := by simp
  exact (write_transmits_iff Reference.crypto_sound hpw hsalt hplains (lit "hello") false
    Source.ended).mpr (by decide)

/-- 65537 zero bytes on a fresh stream: the last one is never sent. -/
theorem write_transmits_counterexample :
    ¬Transmits Reference.crypto .aes256Gcm (lit "pw") (write Reference.crypto
      (List.replicate 65537 0) (writeRun Reference.crypto [] (make Reference.crypto .aes256Gcm
        (lit "pw") (List.replicate 32 7) false Source.ended Sink.healthy)).2).2.output.sent
      (List.replicate 65537 0) := by
  have hpw : lit "pw" ≠ [] := by decide
  have hsalt : (List.replicate 32 (7 : UInt8)).length = CryptoMethod.aes256Gcm.keySize := rfl
  have hplains : ∀ plain ∈ ([] : List Bytes), plain ≠ [] := by simp
  exact not_transmits Reference.crypto_sound hpw hsalt hplains false Source.ended
    (by rw [List.length_replicate]; omega)

end Shadowsocks

end Pichi
