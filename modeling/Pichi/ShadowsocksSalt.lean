/-
# The salt of a Shadowsocks writer

A writer announces its key by a salt in front of its first frame.  That the salt is still to
be sent is kept as its being there: `do_write` sends it when it finds one, and the first
block that is encrypted drops it.  A call without anything to write sends the salt and
encrypts nothing, so that the next call sends it again.

`sentBy` is what a sequence of calls puts on the socket, with empty buffers or without.

**Main result** (`saltOnce_iff`): the salt is sent once and a peer reads what was written
if and only if the first of the calls has something to write, or there is no second one.
-/
import Pichi.ShadowsocksStream

namespace Pichi

namespace Shadowsocks

open Transfer (Source Sink chunks)

variable {c : Crypto} {m : CryptoMethod} {key : Bytes}

/-! ## One call -/

/-- **One call of `do_write`** on a socket that does not break: the salt the encryptor holds,
and the frames of the buffer. -/
theorem doWrite_eq (hc : c.Sound) (plain : Bytes) {s : Shadowsocks}
    (hkey : s.encryptor.cryptor.key = some key) (hm : s.encryptor.cryptor.method = m)
    (hroom : s.output.room = none) :
    doWrite c plain s
      = (.ok (plain.length + 34 * (chunks frameSize plain).length),
        { s with
          output := ⟨s.output.sent ++ s.encryptor.salt
            ++ wire c m key s.encryptor.cryptor.nonce (chunks frameSize plain), none⟩
          encryptor := afterFrames m key s.encryptor (chunks frameSize plain).length }) := by
  by_cases hsalt : s.encryptor.salt = []
  · have hdo : doWrite c plain s = writeFrames c plain 0 s := by simp [doWrite, hsalt]
    rw [hdo, writeFrames_eq hc plain 0 s hkey hm hroom, hsalt]
    simp
  · have hdo : doWrite c plain s
        = writeFrames c plain 0 { s with output := ⟨s.output.sent ++ s.encryptor.salt, none⟩ } := by
      simp [doWrite, hsalt, writeSalt, Sink.write_of_healthy hroom]
    have hloop := writeFrames_eq (s := { s with
      output := ⟨s.output.sent ++ s.encryptor.salt, none⟩ }) hc plain 0 hkey hm rfl
    rw [hdo, hloop, Nat.zero_add]

/-! ## Several calls -/

/-- Without a salt, the encryptor after some frames is the one with the nonce moved on. -/
theorem afterFrames_of_salt_sent {e : Encryptor} (hkey : e.cryptor.key = some key)
    (hm : e.cryptor.method = m) (hsalt : e.salt = []) (k : ℕ) :
    afterFrames m key e k = ⟨⟨m, some key, nonceAfter e.cryptor.nonce k⟩, []⟩ := by
  unfold afterFrames
  split
  · rename_i hk
    obtain ⟨⟨method, key', nonce⟩, salt⟩ := e
    simp only at hkey hm hsalt
    rw [hkey, hm, hsalt, hk, nonceAfter_zero]
  · rfl

theorem writeRun_cons_of_ok {plain : Bytes} {n : ℕ} {s s' : Shadowsocks}
    (h : doWrite c plain s = (.ok n, s')) (plains : List Bytes) :
    writeRun c (plain :: plains) s = writeRun c plains s' := by
  rw [writeRun, h]

theorem framesOf_cons (plain : Bytes) (plains : List Bytes) :
    framesOf (plain :: plains) = chunks frameSize plain ++ framesOf plains :=
  List.flatMap_cons

/-- What several calls send, on a stream whose salt has been sent. -/
theorem writeRun_of_salt_sent (hc : c.Sound) :
    ∀ (plains : List Bytes) {s : Shadowsocks}, s.encryptor.cryptor.key = some key →
      s.encryptor.cryptor.method = m → s.encryptor.salt = [] → s.output.room = none →
      (writeRun c plains s).1 = .ok ()
        ∧ (writeRun c plains s).2.output.sent
          = s.output.sent ++ wire c m key s.encryptor.cryptor.nonce (framesOf plains) := by
  intro plains
  induction plains with
  | nil =>
      intro s _ _ _ _
      simp [writeRun, framesOf, wire]
  | cons plain plains ih =>
      intro s hkey hm hsalt hroom
      have hdo := doWrite_eq hc plain hkey hm hroom
      rw [afterFrames_of_salt_sent hkey hm hsalt, hsalt, List.append_nil] at hdo
      rw [writeRun_cons_of_ok hdo, framesOf_cons, wire_append, ← List.append_assoc]
      exact ih rfl rfl rfl rfl

/-- What a sequence of calls of `do_write` puts on the socket: as long as there is nothing to
write, each of them sends the salt. -/
def sentBy (c : Crypto) (m : CryptoMethod) (key salt : Bytes) : List Bytes → Bytes
  | [] => []
  | plain :: plains =>
    if plain = [] then salt ++ sentBy c m key salt plains
    else salt ++ wire c m key (List.replicate m.nonceSize 0) (framesOf (plain :: plains))

/-- A stream on which no frame has been written; its salt may have been sent. -/
structure Unframed (m : CryptoMethod) (key salt : Bytes) (s : Shadowsocks) : Prop where
  room : s.output.room = none
  encryptor : s.encryptor = ⟨⟨m, some key, List.replicate m.nonceSize 0⟩, salt⟩

theorem unframed_make (c : Crypto) (m : CryptoMethod) (pw salt : Bytes) (sentry : Bool)
    (input : Source UInt8) : Unframed m (Cryptor.deriveKey c pw salt) salt
      (make c m pw salt sentry input Sink.healthy) :=
  ⟨rfl, rfl⟩

/-- **A run of writes** with buffers of any length. -/
theorem writeRun_eq_sentBy (hc : c.Sound) {salt : Bytes} :
    ∀ (plains : List Bytes) {s : Shadowsocks}, Unframed m key salt s →
      (writeRun c plains s).1 = .ok ()
        ∧ (writeRun c plains s).2.output.sent
          = s.output.sent ++ sentBy c m key salt plains := by
  intro plains
  induction plains with
  | nil =>
      intro s _
      simp [writeRun, sentBy]
  | cons plain plains ih =>
      intro s h
      have hkey : s.encryptor.cryptor.key = some key := by rw [h.encryptor]
      have hm : s.encryptor.cryptor.method = m := by rw [h.encryptor]
      have hdo := doWrite_eq hc plain hkey hm h.room
      rw [h.encryptor] at hdo
      rw [writeRun_cons_of_ok hdo, sentBy]
      by_cases hnil : plain = []
      · -- nothing is encrypted, and the encryptor keeps its salt
        subst hnil
        rw [if_pos rfl, ← List.append_assoc]
        simp only [Transfer.chunks_nil, wire, List.append_nil, List.length_nil, afterFrames,
          if_true]
        exact ih ⟨rfl, rfl⟩
      · have hcount : (chunks frameSize plain).length ≠ 0 := by
          rw [Transfer.chunks_of_ne_nil (by decide) hnil]
          simp
        rw [if_neg hnil, framesOf_cons, wire_append, ← List.append_assoc, ← List.append_assoc]
        simp only [afterFrames, hcount, if_false]
        exact writeRun_of_salt_sent hc plains rfl rfl rfl rfl

/-! ## How often the salt is sent -/

section SaltOnce

variable {pw salt : Bytes} {plains : List Bytes}

/-- What the socket holds when every call has gone right: nothing before the first call, and
then the salt and the frames of all buffers. -/
def SaltOnce (c : Crypto) (m : CryptoMethod) (key salt : Bytes) (plains : List Bytes)
    (sent : Bytes) : Prop :=
  sent = if plains = [] then []
    else salt ++ wire c m key (List.replicate m.nonceSize 0) (framesOf plains)

/-- With one buffer that is empty, or a first buffer that is not. -/
theorem saltOnce_sentBy (h : plains.length ≤ 1 ∨ plains.head? ≠ some []) :
    SaltOnce c m key salt plains (sentBy c m key salt plains) := by
  unfold SaltOnce
  cases plains with
  | nil => rfl
  | cons plain plains =>
      rw [if_neg (by simp), sentBy]
      split
      · rename_i hnil
        subst hnil
        obtain rfl : plains = [] := by simpa using h
        simp [sentBy, framesOf, Transfer.chunks_nil, wire]
      · rfl

/-- Calls send the salt and the frames of their buffers at least. -/
theorem length_le_sentBy (hne : plains ≠ []) :
    salt.length + (wire c m key (List.replicate m.nonceSize 0) (framesOf plains)).length
      ≤ (sentBy c m key salt plains).length := by
  induction plains with
  | nil => exact absurd rfl hne
  | cons plain plains ih =>
      rw [sentBy]
      split
      · rename_i hnil
        subst hnil
        have hframes : framesOf ([] :: plains) = framesOf plains := by
          simp [framesOf, Transfer.chunks_nil]
        rw [hframes, List.length_append]
        by_cases hrest : plains = []
        · subst hrest
          simp [framesOf, wire]
        · have hle := ih hrest
          omega
      · rw [List.length_append]

/-- A call without anything to write, and another one behind it. -/
theorem not_saltOnce_sentBy (hsalt : salt ≠ []) (hlen : 1 < plains.length)
    (hhead : plains.head? = some []) :
    ¬SaltOnce c m key salt plains (sentBy c m key salt plains) := by
  obtain ⟨rest, rfl⟩ : ∃ rest, plains = [] :: rest := by
    cases plains with
    | nil => simp at hhead
    | cons plain rest =>
        obtain rfl : plain = [] := by simpa using hhead
        exact ⟨rest, rfl⟩
  have hrest : rest ≠ [] := by
    rintro rfl
    simp at hlen
  have hframes : framesOf ([] :: rest) = framesOf rest := by
    simp [framesOf, Transfer.chunks_nil]
  have hle : salt.length + (wire c m key (List.replicate m.nonceSize 0) (framesOf rest)).length
      ≤ (sentBy c m key salt rest).length := length_le_sentBy hrest
  have hpos := List.length_pos_of_ne_nil hsalt
  intro honce
  rw [SaltOnce, if_neg (by simp), sentBy, if_pos rfl, hframes] at honce
  have hlengths := congrArg List.length honce
  simp only [List.length_append] at hlengths
  omega

/-- **When the salt is sent once.**  After any sequence of calls of `do_write` on a fresh
stream, the socket holds the salt once and then the frames of the buffers, and a peer reads
what was written, if and only if there is one call at most or the first one has something to
write. -/
theorem saltOnce_iff (hc : c.Sound) (hpw : pw ≠ []) (hsalt : salt.length = m.keySize)
    (plains : List Bytes) (sentry : Bool) (input : Source UInt8) :
    let r := writeRun c plains (make c m pw salt sentry input Sink.healthy)
    (r.1 = .ok () ∧ SaltOnce c m (Cryptor.deriveKey c pw salt) salt plains r.2.output.sent
        ∧ Transmits c m pw r.2.output.sent plains.flatten)
      ↔ plains.length ≤ 1 ∨ plains.head? ≠ some [] := by
  intro r
  obtain ⟨hok, hsent⟩ := writeRun_eq_sentBy hc plains (unframed_make c m pw salt sentry input)
  have hr : r.2.output.sent = sentBy c m (Cryptor.deriveKey c pw salt) salt plains := hsent
  rw [hr]
  constructor
  · rintro ⟨-, honce, -⟩
    by_contra h
    push Not at h
    refine not_saltOnce_sentBy ?_ h.1 h.2 honce
    rintro rfl
    exact absurd hsalt (by cases m <;> decide)
  · intro h
    have honce : SaltOnce c m (Cryptor.deriveKey c pw salt) salt plains
        (sentBy c m (Cryptor.deriveKey c pw salt) salt plains) := saltOnce_sentBy h
    refine ⟨hok, honce, ?_⟩
    have hflat := flatten_framesOf plains
    have hsent' : Sent c m (Cryptor.deriveKey c pw salt) salt (framesOf plains)
        (sentBy c m (Cryptor.deriveKey c pw salt) salt plains) := by
      rw [SaltOnce] at honce
      split at honce
      · rename_i hnil
        exact Or.inl ⟨honce, by rw [hnil]; rfl⟩
      · exact Or.inr honce
    exact (transmits_iff hc hpw hsalt of_mem_framesOf hsent' (by rw [hflat])).mpr hflat

end SaltOnce

/-- Two buffers. -/
theorem saltOnce_example :
    Transmits Reference.crypto .aes128Gcm (lit "pw") (writeRun Reference.crypto
      [lit "hello ", [], lit "world"] (make Reference.crypto .aes128Gcm (lit "pw")
        (List.replicate 16 7) false Source.ended Sink.healthy)).2.output.sent
      (lit "hello world") := by
  have hpw : lit "pw" ≠ [] := by decide
  have hsalt : (List.replicate 16 (7 : UInt8)).length = CryptoMethod.aes128Gcm.keySize := rfl
  exact ((saltOnce_iff Reference.crypto_sound hpw hsalt [lit "hello ", [], lit "world"] false
    Source.ended).mpr (by decide)).2.2

/-- A frame takes 34 bytes besides its plaintext. -/
theorem length_wire (hc : c.Sound) (frames : List Bytes) :
    ∀ nonce, (wire c m key nonce frames).length
      = frames.flatten.length + 34 * frames.length := by
  induction frames with
  | nil => intro nonce; rfl
  | cons x xs ih =>
      intro nonce
      rw [wire, List.length_append, length_frame hc, ih, List.flatten_cons, List.length_append,
        List.length_cons]
      omega

/-- A call without anything to write in front of the first one that has: the salt is sent
twice, no frames that hold the plaintext explain what follows the first of them, and the
peer does not read what was written. -/
theorem saltOnce_counterexample :
    let sent := (writeRun Reference.crypto [[], lit "hello"] (make Reference.crypto .aes128Gcm
      (lit "pw") (List.replicate 16 7) false Source.ended Sink.healthy)).2.output.sent
    (¬∃ frames, frames.flatten = lit "hello" ∧ sent = List.replicate 16 7
        ++ wire Reference.crypto .aes128Gcm (Cryptor.deriveKey Reference.crypto (lit "pw")
          (List.replicate 16 7)) (List.replicate 12 0) frames)
      ∧ ¬Transmits Reference.crypto .aes128Gcm (lit "pw") sent (lit "hello") := by
  intro sent
  have hframes : framesOf [lit "hello"] = [lit "hello"] := by
    rw [framesOf_cons, Transfer.chunks_of_ne_nil (by decide) (by decide)]
    simp [framesOf, lit, frameSize]
  have hsent : sent = List.replicate 16 7 ++ (List.replicate 16 7
      ++ wire Reference.crypto .aes128Gcm (Cryptor.deriveKey Reference.crypto (lit "pw")
        (List.replicate 16 7)) (List.replicate 12 0) [lit "hello"]) := by
    have hrun := (writeRun_eq_sentBy Reference.crypto_sound [[], lit "hello"]
      (unframed_make Reference.crypto .aes128Gcm (lit "pw") (List.replicate 16 7) false
        Source.ended)).2
    rw [sentBy, if_pos rfl, sentBy, if_neg (by decide), hframes] at hrun
    exact hrun
  constructor
  · rintro ⟨frames, hflat, heq⟩
    rw [hsent] at heq
    have hlen := congrArg List.length heq
    simp only [List.length_append, length_wire Reference.crypto_sound, hflat,
      List.length_singleton, List.length_replicate] at hlen
    have hhello : [lit "hello"].flatten.length = 5 ∧ (lit "hello").length = 5 := by decide
    omega
  · intro h
    rw [hsent] at h
    have hread := h ⟨[List.replicate 16 7 ++ (List.replicate 16 7
      ++ wire Reference.crypto .aes128Gcm (Cryptor.deriveKey Reference.crypto (lit "pw")
        (List.replicate 16 7)) (List.replicate 12 0) [lit "hello"])], by simp⟩ [] false
      Sink.healthy (List.replicate 6 ({}, 5)) List.flatten_singleton
      (by intro r hr; rw [List.eq_of_mem_replicate hr]; exact ⟨by omega, rfl⟩) (by decide)
    revert hread
    decide +kernel

end Shadowsocks

end Pichi
