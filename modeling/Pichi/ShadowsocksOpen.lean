/-
# What the bytes of a Shadowsocks connection say

`openFrames` is the meaning of a Shadowsocks connection: the plaintexts of the frames that can be
taken off its bytes, up to the first block that is cut off, or whose tag is wrong, or whose length
is out of bounds.  It knows nothing of buffers, caches, calls or segments.

The reader refines it, whatever arrives on the socket: a call that succeeds takes from the queue of
these frames (`doRead_answers`), and so does `read_remote` (`readRemote_answers`).

`Unforged` says that nobody but the writer has sealed a block; then the frames are the first ones
of the writer (`openFrames_of_unforged`), whatever was done to the bytes on their way.
-/
import Pichi.ShadowsocksAuthentic
import Pichi.ShadowsocksIngress

namespace Pichi

namespace Shadowsocks

open Transfer (Source Sink Answers readAll pop chunks)

/-! ## Opening blocks -/

section Open

variable (c : Crypto) (m : CryptoMethod) (key : Bytes)

/-- The plaintext of a block whose tag is right. -/
def openBlock (nonce block : Bytes) : Option Bytes :=
  let cipher := block.take (block.length - tagSize)
  if c.tag m key nonce cipher = block.drop (block.length - tagSize) then
    some (c.decrypt m key nonce cipher)
  else none

/-- Split off a number of bytes. -/
def splitOff (n : ℕ) (bytes : Bytes) : Option (Bytes × Bytes) :=
  if n ≤ bytes.length then some (bytes.take n, bytes.drop n) else none

/-- The first frame, and the bytes behind it. -/
def openFrame (nonce bytes : Bytes) : Option (Bytes × Bytes) := do
  let (header, bytes) ← splitOff (2 + tagSize) bytes
  let lb ← openBlock c m key nonce header
  if (ntoh lb).toNat ≤ frameSize then
    let (payload, bytes) ← splitOff ((ntoh lb).toNat + tagSize) bytes
    let x ← openBlock c m key (sodiumIncrement nonce) payload
    return (x, bytes)
  else none

end Open

variable {c : Crypto} {m : CryptoMethod} {key nonce bytes x rest : Bytes}

theorem splitOff_eq_some_iff {n : ℕ} {w : Bytes} :
    splitOff n bytes = some (w, rest) ↔ bytes = w ++ rest ∧ w.length = n := by
  unfold splitOff
  constructor
  · intro h
    split at h
    · rename_i hle
      cases h
      exact ⟨(List.take_append_drop n bytes).symm, List.length_take_of_le hle⟩
    · cases h
  · rintro ⟨rfl, rfl⟩
    rw [if_pos (by simp), List.take_left, List.drop_left]

/-- A frame: two blocks, the first of which holds the length of the second one. -/
theorem openFrame_eq_some_iff :
    openFrame c m key nonce bytes = some (x, rest) ↔ ∃ header payload lb,
      bytes = header ++ (payload ++ rest) ∧ header.length = 2 + tagSize
        ∧ openBlock c m key nonce header = some lb ∧ (ntoh lb).toNat ≤ frameSize
        ∧ payload.length = (ntoh lb).toNat + tagSize
        ∧ openBlock c m key (sodiumIncrement nonce) payload = some x := by
  unfold openFrame
  simp only [Option.bind_eq_bind, Option.pure_def]
  constructor
  · intro h
    obtain ⟨⟨header, bytes₁⟩, hheader, h⟩ := Option.bind_eq_some_iff.mp h
    obtain ⟨lb, hlb, h⟩ := Option.bind_eq_some_iff.mp h
    simp only at h
    split at h
    · rename_i hle
      obtain ⟨⟨payload, bytes₂⟩, hpayload, h⟩ := Option.bind_eq_some_iff.mp h
      obtain ⟨y, hy, h⟩ := Option.bind_eq_some_iff.mp h
      cases h
      obtain ⟨rfl, hlen⟩ := splitOff_eq_some_iff.mp hheader
      obtain ⟨rfl, hlen'⟩ := splitOff_eq_some_iff.mp hpayload
      exact ⟨header, payload, lb, rfl, hlen, hlb, hle, hlen', hy⟩
    · cases h
  · rintro ⟨header, payload, lb, rfl, hlen, hlb, hle, hlen', hy⟩
    rw [splitOff_eq_some_iff.mpr ⟨rfl, hlen⟩]
    simp only [Option.bind_some, hlb, if_pos hle]
    rw [splitOff_eq_some_iff.mpr ⟨rfl, hlen'⟩]
    simp only [Option.bind_some, hy]

theorem length_of_openFrame (h : openFrame c m key nonce bytes = some (x, rest)) :
    rest.length < bytes.length := by
  obtain ⟨header, payload, lb, rfl, hlen, -⟩ := openFrame_eq_some_iff.mp h
  rw [List.length_append, List.length_append, hlen]
  omega

/-- The frames that can be taken off the bytes of a connection, from a nonce on. -/
def openFrames (c : Crypto) (m : CryptoMethod) (key nonce bytes : Bytes) : List Bytes :=
  match _h : openFrame c m key nonce bytes with
  | none => []
  | some (x, rest) => x :: openFrames c m key (sodiumIncrement (sodiumIncrement nonce)) rest
termination_by bytes.length
decreasing_by exact length_of_openFrame _h

theorem openFrames_of_some (h : openFrame c m key nonce bytes = some (x, rest)) :
    openFrames c m key nonce bytes
      = x :: openFrames c m key (sodiumIncrement (sodiumIncrement nonce)) rest := by
  rw [openFrames]
  split
  · rename_i h'
    rw [h] at h'
    cases h'
  · rename_i h'
    rw [h] at h'
    cases h'
    rfl

theorem openFrames_of_none (h : openFrame c m key nonce bytes = none) :
    openFrames c m key nonce bytes = [] := by
  rw [openFrames]
  split
  · rfl
  · rename_i h'
    rw [h] at h'
    cases h'

/-! ## The reader -/

variable {s s' : Shadowsocks}

/-- What a block that was read has to do with the bytes on the socket. -/
theorem openBlock_of_readBlock {block plain : Bytes}
    (hcryptor : s.decryptor.cryptor = ⟨m, some key, nonce⟩)
    (h : s.readBlock c block = (.ok (), plain, s')) :
    ∃ w, s.input.all = w ++ s'.input.all ∧ w.length = block.length + tagSize
      ∧ openBlock c m key nonce w = some plain
      ∧ s'.decryptor.cryptor = ⟨m, some key, sodiumIncrement nonce⟩ := by
  unfold readBlock at h
  split at h
  · cases h
  · rename_i w input hread
    simp only [Decryptor.process, Cryptor.decrypt, hcryptor] at h
    split at h
    · rename_i htag
      cases h
      exact ⟨w, Source.eq_append_of_read hread, Source.length_of_read hread, if_pos htag, rfl⟩
    · cases h

/-- **The simulation**: the queue is what the reader has cached, and the frames of the bytes to
come. -/
def Carrying (c : Crypto) (m : CryptoMethod) (key : Bytes) (s : Shadowsocks) (q : List Bytes) :
    Prop :=
  s.pw = [] ∧ ∃ nonce, s.decryptor.cryptor = ⟨m, some key, nonce⟩
    ∧ q = if s.cache = [] then openFrames c m key nonce s.input.all
      else s.cache :: openFrames c m key nonce s.input.all

/-- Two blocks that are read one after the other are a frame. -/
theorem openFrame_of_readBlock (hc : c.InPlace) {env : ReadEnv} {lb plain : Bytes}
    {s₁ s₂ : Shadowsocks} (hpw : s.pw = []) (hcache : s.cache = [])
    (hcryptor : s.decryptor.cryptor = ⟨m, some key, nonce⟩)
    (hheader : s.readBlock c [0, 0] = (.ok (), lb, s₁)) (hle : (ntoh lb).toNat ≤ frameSize)
    (hpayload : s₁.readBlock c (env.block (ntoh lb).toNat) = (.ok (), plain, s₂)) :
    openFrame c m key nonce s.input.all = some (plain, s₂.input.all)
      ∧ plain.length = (ntoh lb).toNat ∧ s₂.pw = [] ∧ s₂.cache = []
      ∧ s₂.decryptor.cryptor = ⟨m, some key, sodiumIncrement (sodiumIncrement nonce)⟩ := by
  obtain ⟨header, hall, hlen, hopen, hcryptor₁⟩ := openBlock_of_readBlock hcryptor hheader
  obtain ⟨hcache₁, hpw₁⟩ := readBlock_keeps hheader
  obtain ⟨payload, hall', hlen', hopen', hcryptor₂⟩ := openBlock_of_readBlock hcryptor₁ hpayload
  obtain ⟨hcache₂, hpw₂⟩ := readBlock_keeps hpayload
  rw [length_block] at hlen'
  refine ⟨openFrame_eq_some_iff.mpr ⟨header, payload, lb, by rw [hall, hall'], hlen, hopen, hle,
    hlen', hopen'⟩, ?_, ?_, ?_, hcryptor₂⟩
  · have hplain := length_readBlock (s := s₁) hc (env.block (ntoh lb).toNat)
    rwa [hpayload, length_block] at hplain
  · rw [hpw₂, hpw₁, hpw]
  · rw [hcache₂, hcache₁, hcache]

/-- A call that comes to a frame. -/
theorem openFrame_of_doRead (hc : c.InPlace) {env : ReadEnv} {n : ℕ} {w : Bytes}
    (hpw : s.pw = []) (hcache : s.cache = [])
    (hcryptor : s.decryptor.cryptor = ⟨m, some key, nonce⟩)
    (h : doRead c env n s = (.ok w, s')) :
    ∃ x, openFrame c m key nonce s.input.all = some (x, s'.input.all)
      ∧ s'.pw = [] ∧ s'.decryptor.cryptor = ⟨m, some key, sodiumIncrement (sodiumIncrement nonce)⟩
      ∧ w = x.take n ∧ s'.cache = x.drop n := by
  simp only [doRead, hpw, hcache, List.isEmpty_nil, if_true, Bool.not_true, Bool.false_eq_true,
    if_false] at h
  rcases hheader : s.readBlock c [0, 0] with ⟨f | u, lb, s₁⟩
  · rw [hheader] at h
    cases h
  · rw [hheader] at h
    simp only at h
    split at h
    · cases h
    · rename_i hle
      rw [not_not] at hle
      split at h
      · -- the block is read into the caller's buffer
        rename_i hfits
        rcases hpayload : s₁.readBlock c (env.block (ntoh lb).toNat) with ⟨f | u, x, s₂⟩
        · rw [hpayload] at h
          cases h
        · rw [hpayload] at h
          cases h
          obtain ⟨hframe, hx, hpw₂, hcache₂, hcryptor₂⟩ :=
            openFrame_of_readBlock hc hpw hcache hcryptor hheader hle hpayload
          refine ⟨w, hframe, hpw₂, hcryptor₂, (List.take_of_length_le (by omega)).symm, ?_⟩
          rw [hcache₂, List.drop_of_length_le (by omega)]
      · -- the block is read into the cache
        rw [readBlock_with_cache] at h
        rcases hpayload : s₁.readBlock c (env.block (ntoh lb).toNat) with ⟨f | u, x, s₂⟩
        · rw [hpayload] at h
          cases h
        · rw [hpayload] at h
          cases h
          obtain ⟨hframe, hx, hpw₂, -, hcryptor₂⟩ :=
            openFrame_of_readBlock hc hpw hcache hcryptor hheader hle hpayload
          exact ⟨x, hframe, hpw₂, hcryptor₂, rfl, rfl⟩

/-- **One call of `do_read`**: what it delivers is the next of the frames, whatever arrives. -/
theorem doRead_answers (hc : c.InPlace) (env : Shadowsocks → ReadEnv) :
    Answers (Carrying c m key) (fun s n => doRead c (env s) n s) (pop eof) := by
  rintro s q n w s' ⟨hpw, nonce, hcryptor, rfl⟩ h
  by_cases hcache : s.cache = []
  · obtain ⟨x, hframe, hpw', hcryptor', rfl, hcache'⟩ :=
      openFrame_of_doRead hc hpw hcache hcryptor h
    rw [if_pos hcache, openFrames_of_some hframe]
    refine ⟨_, rfl, hpw', _, hcryptor', ?_⟩
    simp only [hcache', List.drop_eq_nil_iff]
  · simp only [(doRead_of_cache c (env s) n hpw hcache).1] at h
    cases h
    rw [if_neg hcache]
    refine ⟨_, rfl, hpw, _, hcryptor, ?_⟩
    simp only [List.drop_eq_nil_iff]

/-- **`read_remote`**, whatever arrives: the destination it returns is the one at the beginning of
the frames, under the key that the first bytes give. -/
theorem readRemote_answers (hc : c.InPlace) (p : Platform) (env : Shadowsocks → ReadEnv)
    {pw own : Bytes} {sentry : Bool} {src : Source UInt8} {output : Sink UInt8} {e : Endpoint}
    (h : readRemote c p env (make c m pw own sentry src output) = (.ok e, s')) :
    ∃ salt bytes q, src.all = salt ++ bytes ∧ salt.length = m.keySize
      ∧ (parse_endpoint p).run (readAll (pop eof)) (openFrames c m (Cryptor.deriveKey c pw salt)
        (List.replicate m.nonceSize 0) bytes) = (.ok e, q)
      ∧ Carrying c m (Cryptor.deriveKey c pw salt) s' q := by
  unfold readRemote at h
  split at h
  · cases h
  · rename_i s₁ hsalt
    unfold readSalt at hsalt
    split at hsalt
    · cases hsalt
    · rename_i salt input hread
      have hlen := Source.length_of_read hread
      have hall := Source.eq_append_of_read hread
      simp only at hsalt
      split at hsalt
      · cases hsalt
      · cases hsalt
        have hcarrying : Carrying c m (Cryptor.deriveKey c pw salt)
            { make c m pw own sentry src output with
              input := input
              decryptor := (Decryptor.mk (Cryptor.make m) salt).setPsk c pw
              pw := [] }
            (openFrames c m (Cryptor.deriveKey c pw salt) (List.replicate m.nonceSize 0)
              input.all) := ⟨rfl, _, rfl, rfl⟩
        obtain ⟨q, hrun, hq⟩ :=
          ((doRead_answers hc env).readAll).run (parse_endpoint p) _ _ e s' hcarrying h
        refine ⟨salt, input.all, q, hall, ?_, hrun, hq⟩
        simpa [make, Decryptor.make] using hlen

/-! ## Forged blocks -/

/-- The nonce of a block, by its number. -/
def nonceOf (m : CryptoMethod) (j : ℕ) : Bytes :=
  sodiumIncrement^[j] (List.replicate m.nonceSize 0)

/-- The blocks of the frames with the given payloads. -/
def blocksOf (c : Crypto) (m : CryptoMethod) (key : Bytes) : Bytes → List Bytes → List Bytes
  | _, [] => []
  | nonce, x :: xs =>
    sealBlock c m key nonce (hton (UInt16.ofNat x.length))
      :: sealBlock c m key (sodiumIncrement nonce) x
      :: blocksOf c m key (sodiumIncrement (sodiumIncrement nonce)) xs

/-- The length of a block, by its number; behind the last frame another one could begin. -/
def blockLength (frames : List Bytes) (j : ℕ) : ℕ :=
  if j % 2 = 0 then 2 + tagSize else (frames.getD (j / 2) []).length + tagSize

/-- **Nobody else has sealed a block**: what verifies as the block of some number, anywhere in the
bytes, is the block of this number of the writer with the given salt and frames. -/
def Unforged (c : Crypto) (m : CryptoMethod) (pw salt : Bytes) (frames : List Bytes)
    (bytes : Bytes) : Prop :=
  ∀ j block, j ≤ 2 * frames.length → block <:+: bytes → block.length = blockLength frames j →
    (openBlock c m (Cryptor.deriveKey c pw (bytes.take m.keySize)) (nonceOf m j) block).isSome →
    bytes.take m.keySize = salt
      ∧ (blocksOf c m (Cryptor.deriveKey c pw salt) (nonceOf m 0) frames)[j]? = some block

variable {frames : List Bytes}

/-- What a writer puts on the wire are its blocks. -/
theorem flatten_blocksOf (c : Crypto) (m : CryptoMethod) (key : Bytes) (frames : List Bytes) :
    ∀ nonce, (blocksOf c m key nonce frames).flatten = wire c m key nonce frames := by
  induction frames with
  | nil => exact fun _ => rfl
  | cons x xs ih =>
      intro nonce
      rw [blocksOf, wire, List.flatten_cons, List.flatten_cons, ih, List.append_assoc]

theorem openBlock_sealBlock (hc : c.Sound) (x : Bytes) :
    openBlock c m key nonce (sealBlock c m key nonce x) = some x := by
  have hlen : (sealBlock c m key nonce x).length - tagSize
      = (c.encrypt m key nonce x).length := by
    rw [length_sealBlock hc, hc.length_encrypt, tagSize]
    omega
  simp only [openBlock, hlen]
  simp only [sealBlock, List.take_left, List.drop_left, if_true, hc.decrypt_encrypt]

/-- Where no header verifies there are no frames. -/
theorem openFrames_eq_nil (h : ∀ block, block <:+: bytes → block.length = 2 + tagSize →
    openBlock c m key nonce block = none) : openFrames c m key nonce bytes = [] := by
  rcases hframe : openFrame c m key nonce bytes with _ | ⟨x, rest⟩
  · exact openFrames_of_none hframe
  · obtain ⟨header, payload, lb, rfl, hlen, hopen, -⟩ := openFrame_eq_some_iff.mp hframe
    rw [h header (List.prefix_append _ _).isInfix hlen] at hopen
    cases hopen

/-- Where only the blocks of some frames verify, each at its place, there are no other frames. -/
theorem openFrames_isPrefix (hc : c.Sound) (hframes : ∀ x ∈ frames, x.length ≤ frameSize)
    (h : ∀ j block, j ≤ 2 * frames.length → block <:+: bytes →
      block.length = blockLength frames j →
      (openBlock c m key (sodiumIncrement^[j] nonce) block).isSome →
      (blocksOf c m key nonce frames)[j]? = some block) :
    openFrames c m key nonce bytes <+: frames := by
  induction frames generalizing nonce bytes with
  | nil =>
      rw [openFrames_eq_nil]
      intro block hblock hlen
      by_contra hsome
      have := h 0 block (by simp) hblock hlen (Option.isSome_iff_ne_none.mpr hsome)
      simp [blocksOf] at this
  | cons x xs ih =>
      rcases hframe : openFrame c m key nonce bytes with _ | ⟨y, rest⟩
      · rw [openFrames_of_none hframe]
        exact List.nil_prefix
      · rw [openFrames_of_some hframe]
        obtain ⟨header, payload, lb, rfl, hlen, hheader, -, hlen', hpayload⟩ :=
          openFrame_eq_some_iff.mp hframe
        -- the first block says how long the second one is
        have hfirst := h 0 header (Nat.zero_le _) (List.prefix_append _ _).isInfix hlen (by
          rw [Function.iterate_zero, id_eq, hheader]
          rfl)
        have hheader' : header = sealBlock c m key nonce (hton (UInt16.ofNat x.length)) := by
          simpa [blocksOf] using hfirst.symm
        rw [hheader', openBlock_sealBlock hc] at hheader
        cases hheader
        have hx : x.length < 65536 := by
          have := hframes x (by simp)
          unfold frameSize at this
          omega
        rw [← List.append_nil (hton _), ntoh_hton_append, UInt16.toNat_ofNat_of_lt' hx] at hlen'
        -- and so the second one is the one of the writer as well
        have hsecond := h 1 payload (by rw [List.length_cons]; omega) ⟨header, rest, by simp⟩
          hlen' (by
            rw [Function.iterate_one, hpayload]
            rfl)
        have hpayload' : payload = sealBlock c m key (sodiumIncrement nonce) x := by
          simpa [blocksOf] using hsecond.symm
        rw [hpayload', openBlock_sealBlock hc] at hpayload
        cases hpayload
        refine List.cons_prefix_cons.mpr ⟨rfl, ih (fun z hz => hframes z (by simp [hz])) ?_⟩
        intro j block hj hblock hlen hsome
        have hnext := h (j + 2) block (by rw [List.length_cons]; omega)
          (hblock.trans ⟨header ++ payload, [], by simp⟩)
          (by rw [hlen, blockLength, blockLength, Nat.add_mod_right,
            Nat.add_div_right j (by decide), List.getD_cons_succ]) hsome
        simpa [blocksOf] using hnext

/-- **Without forged blocks the frames are those of the writer**, up to some point: whatever was
cut off, inserted, repeated or moved. -/
theorem openFrames_of_unforged (hc : c.Sound) {pw salt salt' : Bytes}
    (hframes : ∀ x ∈ frames, x.length ≤ frameSize) (hlen : salt'.length = m.keySize)
    (h : Unforged c m pw salt frames (salt' ++ bytes)) :
    openFrames c m (Cryptor.deriveKey c pw salt') (List.replicate m.nonceSize 0) bytes
      <+: frames := by
  have htake : (salt' ++ bytes).take m.keySize = salt' := by rw [← hlen, List.take_left]
  simp only [Unforged, htake] at h
  have hwithin : ∀ {block : Bytes}, block <:+: bytes → block <:+: salt' ++ bytes :=
    fun hblock => hblock.trans (List.suffix_append _ _).isInfix
  by_cases hsalt : salt' = salt
  · subst hsalt
    exact openFrames_isPrefix hc hframes fun j block hj hblock hlen hsome =>
      (h j block hj (hwithin hblock) hlen hsome).2
  · -- under another key nothing verifies at all
    rw [openFrames_eq_nil]
    · exact List.nil_prefix
    · intro block hblock hlen
      by_contra hsome
      exact hsalt (h 0 block (Nat.zero_le _) (hwithin hblock) hlen
        (Option.isSome_iff_ne_none.mpr hsome)).1

end Shadowsocks

end Pichi
