/-
# What a Shadowsocks reader hands out

A reader asks for a frame in two blocks, and a block whose tag is wrong is reported by an
exception.  If the frame does not fit into the caller's buffer, the payload goes into the
cache, and the cache is committed before the block is read: when the block is cut off or its
tag is wrong, the call fails and the cache keeps what the block held.  The next call hands
that out.

`verified` is the plaintext a call has checked, `Torn` says that a call has left an
unchecked block in the cache.

**Main result** (`authentic_iff`): whatever arrives on the socket and whatever sizes the
calls have, what is handed out is the beginning of what was checked, after every call of the
run, if and only if no call with room in its buffer follows a torn one.
-/
import Pichi.ShadowsocksStream

namespace Pichi

/-- What the reader relies on in Botan: ciphers work in place. -/
def Crypto.InPlace (c : Crypto) : Prop :=
  ∀ m key nonce x, (c.decrypt m key nonce x).length = x.length

namespace Shadowsocks

open Transfer (Source Sink)

variable (c : Crypto)

/-! ## Frames a call begins to read -/

/-- The first line of `do_read`. -/
def ensureSalt (env : ReadEnv) (s : Shadowsocks) : Result Unit × Shadowsocks :=
  if s.pw.isEmpty then (.ok (), s) else s.readSalt c env

/-- The frame a call of `do_read` begins to read: its length, and the stream in front of its
second block.  A call that is served from the cache reads no frame, and a call may fail
before it comes to one. -/
def frameOf (env : ReadEnv) (s : Shadowsocks) : Option (ℕ × Shadowsocks) :=
  match ensureSalt c env s with
  | (.error _, _) => none
  | (.ok (), s) =>
    if !s.cache.isEmpty then none
    else
      match s.readBlock c [0, 0] with
      | (.error _, _, _) => none
      | (.ok (), lb, s) =>
        if (ntoh lb).toNat ≤ frameSize then some ((ntoh lb).toNat, s) else none

/-- The plaintext of the data block whose tag a call has verified. -/
def verified (env : ReadEnv) (s : Shadowsocks) : Bytes :=
  match frameOf c env s with
  | none => []
  | some (len, s) =>
    match s.readBlock c (env.block len) with
    | (.error _, _, _) => []
    | (.ok (), block, _) => block

/-- A call that leaves an unchecked block in the cache: the frame does not fit into the
buffer, and its second block is cut off or does not verify. -/
def Torn (env : ReadEnv) (size : ℕ) (s : Shadowsocks) : Prop :=
  ∃ len s', frameOf c env s = some (len, s') ∧ size < len
    ∧ (s'.readBlock c (env.block len)).1 ≠ .ok ()

/-- The second half of `do_read`. -/
def readPayload (env : ReadEnv) (size len : ℕ) (s : Shadowsocks) : Result Bytes × Shadowsocks :=
  if len ≤ size then
    match s.readBlock c (env.block len) with
    | (.error f, _, s) => (.error f, s)
    | (.ok (), block, s) => (.ok block, s)
  else
    match { s with cache := env.block len }.readBlock c (env.block len) with
    | (.error f, block, s) => (.error f, { s with cache := block })
    | (.ok (), block, s) => (.ok (block.take size), { s with cache := block.drop size })

variable {c} {env : ReadEnv} {size len : ℕ} {s s' : Shadowsocks}

/-- The salt does not touch the cache, and once it is accepted the password is gone. -/
theorem ensureSalt_spec (env : ReadEnv) (s : Shadowsocks) :
    (ensureSalt c env s).2.cache = s.cache
      ∧ ((ensureSalt c env s).1 = .ok () → (ensureSalt c env s).2.pw = []) := by
  unfold ensureSalt
  split
  · rename_i hpw
    exact ⟨rfl, fun _ => List.isEmpty_iff.mp hpw⟩
  · unfold readSalt
    split
    · exact ⟨rfl, fun h => by cases h⟩
    · simp only
      split
      · exact ⟨rfl, fun h => by cases h⟩
      · exact ⟨rfl, fun _ => rfl⟩

/-- A block touches neither the cache nor the password. -/
theorem readBlock_keeps {block plain : Bytes} {r : Result Unit}
    (h : s.readBlock c block = (r, plain, s')) : s'.cache = s.cache ∧ s'.pw = s.pw := by
  unfold readBlock at h
  split at h
  · cases h
    exact ⟨rfl, rfl⟩
  · cases h
    exact ⟨rfl, rfl⟩

/-- What a call of `do_read` does: it comes to a frame, or it fails and leaves the cache as it
was, or it hands out what is cached. -/
theorem doRead_cases (env : ReadEnv) (size : ℕ) (s : Shadowsocks) :
    (∃ len s', frameOf c env s = some (len, s') ∧ s.cache = [] ∧ s'.cache = [] ∧ s'.pw = []
        ∧ doRead c env size s = readPayload c env size len s')
      ∨ frameOf c env s = none
        ∧ ((∃ f s', doRead c env size s = (.error f, s') ∧ s'.cache = s.cache)
          ∨ ∃ s', doRead c env size s = (.ok (s.cache.take size), s')
            ∧ s'.cache = s.cache.drop size) := by
  obtain ⟨hcache, hpw⟩ := ensureSalt_spec (c := c) env s
  have hdo : doRead c env size s = match ensureSalt c env s with
      | (.error f, s) => (.error f, s)
      | (.ok (), s) =>
        if !s.cache.isEmpty then
          (.ok (s.cache.take size), { s with cache := s.cache.drop size })
        else
          match s.readBlock c [0, 0] with
          | (.error f, _, s) => (.error f, s)
          | (.ok (), lb, s) =>
            if ¬(ntoh lb).toNat ≤ frameSize then (.error badProto, s)
            else readPayload c env size (ntoh lb).toNat s := rfl
  rw [hdo]
  unfold frameOf
  rcases hsalt : ensureSalt c env s with ⟨f | u, s₁⟩
  · rw [hsalt] at hcache
    exact Or.inr ⟨rfl, Or.inl ⟨f, s₁, rfl, hcache⟩⟩
  · rw [hsalt] at hcache hpw
    have hpw₁ : s₁.pw = [] := hpw rfl
    simp only at hcache ⊢
    by_cases hempty : s₁.cache = []
    · simp only [hempty, List.isEmpty_nil, Bool.not_true]
      rcases hblock : s₁.readBlock c [0, 0] with ⟨f | u, lb, s₂⟩
      · exact Or.inr ⟨rfl, Or.inl ⟨f, s₂, rfl, (readBlock_keeps hblock).1.trans hcache⟩⟩
      · obtain ⟨hcache₂, hpw₂⟩ := readBlock_keeps hblock
        by_cases hlen : (ntoh lb).toNat ≤ frameSize
        · exact Or.inl ⟨(ntoh lb).toNat, s₂, by simp [hlen], hcache.symm.trans hempty,
            hcache₂.trans hempty, hpw₂.trans hpw₁, by simp [hlen]⟩
        · exact Or.inr ⟨by simp [hlen], Or.inl ⟨badProto, s₂, by simp [hlen],
            hcache₂.trans hcache⟩⟩
    · have hne : s.cache.isEmpty = false := by simpa [← hcache] using hempty
      refine Or.inr ⟨by simp [hcache, hne],
        Or.inr ⟨{ s₁ with cache := s₁.cache.drop size }, ?_, ?_⟩⟩
      · simp [hcache, hne]
      · rw [hcache]

/-! ## What is checked and what is handed out -/

/-- A block read into the cache or into the caller's buffer is the same block. -/
theorem readBlock_with_cache (cache block : Bytes) (s : Shadowsocks) :
    { s with cache := cache }.readBlock c block
      = ((s.readBlock c block).1, (s.readBlock c block).2.1,
        { (s.readBlock c block).2.2 with cache := cache }) := by
  unfold readBlock
  split
  · rename_i h
    simp only at h
    rw [h]
  · rename_i h
    simp only at h
    rw [h]

/-- **A call that is not torn** hands out and caches what was cached before and what it has
checked. -/
theorem got_append_cache (h : ¬Torn c env size s) :
    got (doRead c env size s).1 ++ (doRead c env size s).2.cache = s.cache ++ verified c env s := by
  rcases doRead_cases (c := c) env size s with
    ⟨len, s', hframe, hcache, hcache', -, hdo⟩
      | ⟨hframe, ⟨f, s', hdo, hcache'⟩ | ⟨s', hdo, hcache'⟩⟩
  · rw [hdo, verified, hframe, hcache, readPayload, List.nil_append]
    rcases hblock : s'.readBlock c (env.block len) with ⟨f | u, block, s₂⟩
    · -- a torn call is excluded, so the block was meant for the caller's buffer
      have hfits : len ≤ size := by
        by_contra hlt
        exact h ⟨len, s', hframe, by omega, by rw [hblock]; simp⟩
      simp [hfits, hblock, got, (readBlock_keeps hblock).1, hcache']
    · have hcache₂ := (readBlock_keeps hblock).1
      by_cases hfits : len ≤ size
      · simp [hfits, hblock, got, hcache₂, hcache']
      · simp [hfits, readBlock_with_cache, hblock, got]
  · rw [hdo, verified, hframe, hcache']
    simp [got]
  · rw [hdo, verified, hframe, hcache']
    simp [got]

/-- A block keeps its length, whether or not its tag is right. -/
theorem length_readBlock (hc : c.InPlace) (block : Bytes) :
    (s.readBlock c block).2.1.length = block.length := by
  unfold readBlock
  split
  · rfl
  · rename_i cipher input h
    have hlen := Source.length_of_read h
    have htake : (cipher.take (cipher.length - 16)).length = block.length := by
      rw [List.length_take, hlen, tagSize]
      omega
    simp only [Decryptor.process, Cryptor.decrypt]
    split
    · exact htake
    · split
      · rw [hc, htake]
      · rw [hc, htake]

/-- **A torn call** hands out nothing and has checked nothing, but it leaves something in the
cache. -/
theorem torn_spec (hc : c.InPlace) (h : Torn c env size s) :
    got (doRead c env size s).1 = [] ∧ verified c env s = [] ∧ s.cache = []
      ∧ (doRead c env size s).2.cache ≠ [] ∧ (doRead c env size s).2.pw = [] := by
  obtain ⟨len, s', hframe, hlt, hfail⟩ := h
  rcases doRead_cases (c := c) env size s with
    ⟨len₁, s₁, hframe₁, hcache, -, hpw₁, hdo⟩ | ⟨hframe₁, -⟩
  · obtain ⟨rfl, rfl⟩ : len = len₁ ∧ s' = s₁ := by simpa [hframe] using hframe₁
    have hlen := length_readBlock hc (s := s') (env.block len)
    rcases hblock : s'.readBlock c (env.block len) with ⟨f | u, block, s₂⟩
    · rw [hblock, length_block] at hlen
      have hpw₂ := (readBlock_keeps hblock).2
      have hdo' : doRead c env size s = (.error f, { s₂ with cache := block }) := by
        rw [hdo, readPayload, if_neg (by omega), readBlock_with_cache, hblock]
      rw [hdo', verified, hframe]
      have hpos : 0 < block.length := by
        rw [show block.length = len from hlen]
        omega
      exact ⟨rfl, by simp [hblock], hcache, List.ne_nil_of_length_pos hpos, hpw₂.trans hpw₁⟩
    · rw [hblock] at hfail
      exact absurd rfl hfail
  · rw [hframe₁] at hframe
    cases hframe

/-- With something in the cache and the salt read, a call is served from the cache. -/
theorem doRead_of_cache (c : Crypto) (env : ReadEnv) (size : ℕ) (hpw : s.pw = [])
    (hcache : s.cache ≠ []) :
    doRead c env size s = (.ok (s.cache.take size), { s with cache := s.cache.drop size })
      ∧ frameOf c env s = none := by
  constructor
  · simp [doRead, hpw, hcache]
  · simp [frameOf, ensureSalt, hpw, hcache]

/-! ## Runs -/

/-- The plaintexts a sequence of calls has checked. -/
def verifiedRun (c : Crypto) : List (ReadEnv × ℕ) → Shadowsocks → Bytes
  | [], _ => []
  | read :: reads, s =>
    verified c read.1 s ++ verifiedRun c reads (doRead c read.1 read.2 s).2

/-- **Nothing but checked plaintext**: after every call of the run, what was handed out so far
is the beginning of what was checked so far. -/
def Authentic (c : Crypto) (reads : List (ReadEnv × ℕ)) (s : Shadowsocks) : Prop :=
  ∀ before, before <+: reads → delivered (readRun c before s).1 <+: verifiedRun c before s

/-- No call with room in its buffer follows a torn one. -/
def NothingAfterTorn (c : Crypto) : List (ReadEnv × ℕ) → Shadowsocks → Prop
  | [], _ => True
  | read :: reads, s =>
    (Torn c read.1 read.2 s → ∀ r ∈ reads, r.2 = 0)
      ∧ NothingAfterTorn c reads (doRead c read.1 read.2 s).2

instance (env : ReadEnv) (size : ℕ) (s : Shadowsocks) : Decidable (Torn c env size s) :=
  decidable_of_iff ((frameOf c env s).any (fun x =>
      decide (size < x.1 ∧ (x.2.readBlock c (env.block x.1)).1 ≠ .ok ())) = true) (by
    simp [Torn, Option.any_eq_true])

instance decidableNothingAfterTorn (c : Crypto) :
    ∀ reads s, Decidable (NothingAfterTorn c reads s)
  | [], _ => .isTrue trivial
  | _ :: reads, _ => @instDecidableAnd _ _ _ (decidableNothingAfterTorn c reads _)

/-- A run that goes on after `d` was handed out and `v` was checked. -/
def AuthenticAfter (c : Crypto) (d v : Bytes) (reads : List (ReadEnv × ℕ)) (s : Shadowsocks) :
    Prop :=
  ∀ before, before <+: reads →
    d ++ delivered (readRun c before s).1 <+: v ++ verifiedRun c before s

variable {d v : Bytes} {read : ReadEnv × ℕ} {reads : List (ReadEnv × ℕ)}

theorem authenticAfter_cons :
    AuthenticAfter c d v (read :: reads) s ↔
      d <+: v ∧ AuthenticAfter c (d ++ got (doRead c read.1 read.2 s).1)
        (v ++ verified c read.1 s) reads (doRead c read.1 read.2 s).2 := by
  constructor
  · intro h
    constructor
    · simpa [readRun, delivered, verifiedRun] using h [] List.nil_prefix
    · intro before hbefore
      have hcons := h (read :: before) ((List.prefix_cons_inj read).mpr hbefore)
      rwa [delivered_cons, verifiedRun, ← List.append_assoc, ← List.append_assoc] at hcons
  · rintro ⟨hd, h⟩ before hbefore
    cases before with
    | nil => simpa [readRun, delivered, verifiedRun] using hd
    | cons read' before =>
        obtain ⟨rfl, hrest⟩ := List.cons_prefix_cons.mp hbefore
        rw [delivered_cons, verifiedRun, ← List.append_assoc, ← List.append_assoc]
        exact h before hrest

/-- Once there is something unchecked in the cache, only calls without room in their buffer
may follow. -/
theorem authenticAfter_of_torn (hpw : s.pw = []) (hcache : s.cache ≠ []) :
    AuthenticAfter c d d reads s ↔ ∀ r ∈ reads, r.2 = 0 := by
  induction reads with
  | nil =>
      constructor
      · simp
      · intro _ before hbefore
        rw [List.prefix_nil.mp hbefore]
        simp [readRun, delivered, verifiedRun]
  | cons read reads ih =>
      obtain ⟨hdo, hframe⟩ := doRead_of_cache c read.1 read.2 hpw hcache
      have hverified : verified c read.1 s = [] := by rw [verified, hframe]
      rw [authenticAfter_cons, hdo, hverified, List.append_nil, List.forall_mem_cons]
      by_cases hsize : read.2 = 0
      · simp only [hsize, List.take_zero, got, List.append_nil, List.drop_zero, ih, true_and,
          List.prefix_rfl]
      · -- the call hands out a byte of the cache, and nothing was checked
        constructor
        · rintro ⟨-, h⟩
          have hpre := (h [] List.nil_prefix).length_le
          have hpos := List.length_pos_of_ne_nil hcache
          simp only [got, readRun, delivered, List.flatMap_nil, List.append_nil, verifiedRun,
            List.length_append, List.length_take] at hpre
          omega
        · rintro ⟨hzero, -⟩
          exact absurd hzero hsize

theorem nothingAfterTorn_of_cache (hpw : s.pw = []) (hcache : s.cache ≠ [])
    (h : ∀ r ∈ reads, r.2 = 0) : NothingAfterTorn c reads s := by
  induction reads with
  | nil => trivial
  | cons read reads ih =>
      obtain ⟨hzero, hrest⟩ := List.forall_mem_cons.mp h
      obtain ⟨hdo, hframe⟩ := doRead_of_cache c read.1 read.2 hpw hcache
      refine ⟨fun _ => hrest, ?_⟩
      rw [hdo, hzero, List.drop_zero]
      exact ih hrest

/-- **The invariant of the cache**: what was handed out and what is cached is what was
checked.  A run that starts with it is authentic if and only if it stops at a torn call. -/
theorem authenticAfter_iff (hc : c.InPlace) (hinv : d ++ s.cache = v) :
    AuthenticAfter c d v reads s ↔ NothingAfterTorn c reads s := by
  induction reads generalizing d v s with
  | nil =>
      subst hinv
      refine ⟨fun _ => trivial, fun _ before hbefore => ?_⟩
      rw [List.prefix_nil.mp hbefore]
      simp [readRun, delivered, verifiedRun]
  | cons read reads ih =>
      rw [authenticAfter_cons, NothingAfterTorn]
      have hpre : d <+: v := ⟨s.cache, hinv⟩
      by_cases htorn : Torn c read.1 read.2 s
      · obtain ⟨hgot, hverified, hcache, hne, hpw⟩ := torn_spec hc htorn
        rw [hcache, List.append_nil] at hinv
        subst hinv
        rw [hgot, hverified, List.append_nil, authenticAfter_of_torn hpw hne]
        constructor
        · rintro ⟨-, h⟩
          exact ⟨fun _ => h, nothingAfterTorn_of_cache hpw hne h⟩
        · rintro ⟨h, -⟩
          exact ⟨hpre, h htorn⟩
      · have hnext : (d ++ got (doRead c read.1 read.2 s).1) ++ (doRead c read.1 read.2 s).2.cache
            = v ++ verified c read.1 s := by
          rw [List.append_assoc, got_append_cache htorn, ← List.append_assoc, hinv]
        rw [ih hnext]
        exact ⟨fun h => ⟨fun ht => absurd ht htorn, h.2⟩, fun h => ⟨hpre, h.2⟩⟩

/-- **When a reader hands out nothing but checked plaintext.**  For every reader, whatever
arrives on its socket, whatever the sentry answers and memory holds, and for every sequence
of calls of any sizes, failed ones included. -/
theorem authentic_iff (hc : c.InPlace) (m : CryptoMethod) (pw own : Bytes) (sentry : Bool)
    (input : Source UInt8) (output : Sink UInt8) (reads : List (ReadEnv × ℕ)) :
    Authentic c reads (make c m pw own sentry input output)
      ↔ NothingAfterTorn c reads (make c m pw own sentry input output) := by
  have h : AuthenticAfter c [] [] reads (make c m pw own sentry input output)
      ↔ NothingAfterTorn c reads (make c m pw own sentry input output) :=
    authenticAfter_iff hc rfl
  simpa [AuthenticAfter, Authentic] using h

/-- The reference ciphers work in place. -/
theorem reference_inPlace : Reference.crypto.InPlace := by
  intro m key nonce x
  simp [Reference.crypto, Reference.mask]

/-- A salt, a frame header that announces five bytes, and a block that is not sealed. -/
def forgedInput : Bytes :=
  List.replicate 16 7 ++ sealBlock Reference.crypto .aes128Gcm
    (Cryptor.deriveKey Reference.crypto (lit "pw") (List.replicate 16 7)) (List.replicate 12 0)
    (hton 5) ++ List.replicate 21 0

/-- A reader in front of the forged input. -/
def forgedReader : Shadowsocks :=
  make Reference.crypto .aes128Gcm (lit "pw") [] true ⟨[forgedInput], by decide⟩ Sink.healthy

/-- A salt, the frame `hello`, a frame header that announces three bytes, and bytes that are not
sealed. -/
def brokenInput : Bytes :=
  List.replicate 16 7
    ++ wire Reference.crypto .aes128Gcm
      (Cryptor.deriveKey Reference.crypto (lit "pw") (List.replicate 16 7)) (List.replicate 12 0)
      [lit "hello"]
    ++ sealBlock Reference.crypto .aes128Gcm
      (Cryptor.deriveKey Reference.crypto (lit "pw") (List.replicate 16 7))
      (2 :: List.replicate 11 0) (hton 3)
    ++ List.replicate 60 0

/-- A reader in front of it. -/
def brokenReader : Shadowsocks :=
  make Reference.crypto .aes128Gcm (lit "pw") [] true ⟨[brokenInput], by decide⟩ Sink.healthy

/-- Small buffers, one with room for the frame that is not sealed, and one more. -/
def brokenReads : List (ReadEnv × ℕ) := [({}, 2), ({}, 0), ({}, 2), ({}, 2), ({}, 4), ({}, 2)]

/-- The frame is handed out in parts; the call that meets the block without a tag fails, and the
one after it hands out nothing either. -/
theorem authentic_iff_example :
    (readRun Reference.crypto brokenReads brokenReader).1
        = [.ok (lit "he"), .ok [], .ok (lit "ll"), .ok (lit "o"),
          .error (.thrown .invalidAuthenticationTag), .error (.thrown .invalidAuthenticationTag)]
      ∧ Authentic Reference.crypto brokenReads brokenReader :=
  ⟨by decide +kernel, (authentic_iff reference_inPlace .aes128Gcm (lit "pw") [] true
    ⟨[brokenInput], by decide⟩ Sink.healthy brokenReads).mpr (by decide +kernel)⟩

/-- Two calls on the forged input: the first one fails by the tag, and the second one hands
out what the cipher made of the forged block. -/
theorem authentic_counterexample :
    (readRun Reference.crypto [({}, 2), ({}, 2)] forgedReader).1
        = [.error (.thrown .invalidAuthenticationTag), .ok [87, 216]]
      ∧ verifiedRun Reference.crypto [({}, 2), ({}, 2)] forgedReader = []
      ∧ ¬Authentic Reference.crypto [({}, 2), ({}, 2)] forgedReader := by
  have hrun : (readRun Reference.crypto [({}, 2), ({}, 2)] forgedReader).1
      = [.error (.thrown .invalidAuthenticationTag), .ok [87, 216]] := by decide +kernel
  have hnone : verifiedRun Reference.crypto [({}, 2), ({}, 2)] forgedReader = [] := by
    decide +kernel
  refine ⟨hrun, hnone, ?_⟩
  intro h
  have hpre := h _ List.prefix_rfl
  rw [hrun, hnone] at hpre
  simp [delivered] at hpre

end Shadowsocks

end Pichi
