/-
# The key of a Shadowsocks reader

`stream::Shadowsocks<Socket>` over an arbitrary socket, of which every operation may fail, as
often as it likes and with any part of a buffer filled.  Whether the decryptor has its key is
kept as the emptiness of the password: `read_salt` is made as long as there is a password, which
is cleared at the end of `read_salt` if nothing before has failed.  Over a channel, whose only
failures are its end and its breaking, the coroutines are the functions of `Shadowsocks`
(`refines_doRead`, `refines_doWrite`).

The calls of the two functions of the decryptor are recorded, `set_psk` with what it is given and
`process`.  The coroutines are programs with a state and failures, and what they keep is shown by
the rules of `Hoare`: the record is empty and the password the one of the configuration, or it is
one `set_psk` and some `process` behind it and the password is empty.

**Main result** (`keyed_run`): over any sequence of calls the decryptor is given its key once,
with the full password and a salt of the right length, and processes nothing before; and no call
ends in `std::terminate`.
-/
import Pichi.Hoare
import Pichi.ShadowsocksAuthentic
import Pichi.VoOptions

namespace Pichi

open Hoare (Triple Refines runAll runAll_cons runAll_of_forall)

/-! ## The stream over a socket -/

/-- The operations of a socket.  A read fills a buffer, or fails with a part of it filled. -/
structure AsyncSocket (σ : Type) where
  connect : Endpoint → σ → Option SystemError × σ
  read : (buf : Bytes) → σ → Option SystemError × { w : Bytes // w.length = buf.length } × σ
  write : Bytes → σ → Option SystemError × σ

/-- A call of a function of the decryptor. -/
inductive DecryptorCall : Type where
  | setPsk (pw salt : Bytes)
  | process (cipher : Bytes)
  deriving DecidableEq

/-- `Shadowsocks<Socket>`, with the calls its decryptor got so far. -/
structure ShadowsocksOver (σ : Type) where
  pw : Bytes
  cache : Bytes := []
  sentry : Bool
  socket : σ
  encryptor : Encryptor
  decryptor : Decryptor
  proxy : Endpoint
  calls : List DecryptorCall := []

namespace ShadowsocksOver

variable {σ : Type} (c : Crypto) (io : AsyncSocket σ)

/-- A coroutine of the stream. -/
abbrev Coroutine (σ α : Type) := ExceptT Fault (StateM (ShadowsocksOver σ)) α

/-- The constructors; `salt` is what the encryptor drew at random or was given. -/
def make (method : CryptoMethod) (pw salt : Bytes) (sentry : Bool) (proxy : Endpoint)
    (socket : σ) : ShadowsocksOver σ where
  pw := pw
  sentry := sentry
  socket := socket
  encryptor := Encryptor.make c method pw salt
  decryptor := Decryptor.make method
  proxy := proxy

/-- An operation that may throw. -/
def thrown : Option SystemError → Result Unit
  | none => .ok ()
  | some e => .error (.thrown (.systemError e))

/-- `async_read` into the salt of the decryptor. -/
def receiveSalt : Coroutine σ Unit := fun s =>
  let (e, salt, socket) := io.read s.decryptor.salt s.socket
  (thrown e, { s with socket := socket, decryptor := { s.decryptor with salt := salt.1 } })

/-- `async_read` into a buffer of `n` bytes. -/
def receive (n : ℕ) : Coroutine σ Bytes := fun s =>
  let (e, w, socket) := io.read (List.replicate n 0) s.socket
  ((thrown e).map fun _ => w.1, { s with socket := socket })

/-- `async_write`. -/
def transmit (w : Bytes) : Coroutine σ Unit := fun s =>
  let (e, socket) := io.write w s.socket
  (thrown e, { s with socket := socket })

/-- `connect` to the proxy. -/
def connect : Coroutine σ Unit := fun s =>
  let (e, socket) := io.connect s.proxy s.socket
  (thrown e, { s with socket := socket })

/-- `serializeEndpoint` into a buffer of `FRAME_SIZE` bytes. -/
def serialize (p : Platform) (peer : Endpoint) : Coroutine σ Bytes := fun s =>
  ((serializeEndpoint p peer frameSize).lift, s)

/-- `decryptor_.set_psk(pw_)`. -/
def setPsk : Coroutine σ Unit := modify fun s =>
  { s with
    decryptor := s.decryptor.setPsk c s.pw
    calls := s.calls ++ [.setPsk s.pw s.decryptor.salt] }

/-- `decryptor_.process` into a block; `put` is what becomes of the memory of the block. -/
def process (cipher : Bytes) (put : Bytes → ShadowsocksOver σ → ShadowsocksOver σ) :
    Coroutine σ Bytes := fun s =>
  let (r, plain, decryptor) := s.decryptor.process c cipher
  (r.map fun _ => plain,
    put plain { s with decryptor := decryptor, calls := s.calls ++ [.process cipher] })

/-- `encryptor_.process`. -/
def encrypt (plain : Bytes) : Coroutine σ Bytes := fun s =>
  let (r, encryptor) := s.encryptor.process c plain
  (r, { s with encryptor := encryptor })

/-- `read_salt`, and so `async_accept`. -/
def readSalt (env : ReadEnv) : Coroutine σ Unit := do
  receiveSalt io
  if (← get).sentry && env.replayed then throw badProto
  setPsk c
  modify fun s => { s with pw := [] }

/-- `read_block` into a block of `n` bytes. -/
def readBlock (n : ℕ) (put : Bytes → ShadowsocksOver σ → ShadowsocksOver σ) :
    Coroutine σ Bytes := do
  let cipher ← receive io (n + tagSize)
  process c cipher put

/-- `cache_.copy` into a buffer of the given size. -/
def copy (size : ℕ) : Coroutine σ Bytes := fun s =>
  (.ok (s.cache.take size), { s with cache := s.cache.drop size })

/-- The second half of `do_read`: the block of a frame. -/
def readPayload (env : ReadEnv) (size len : ℕ) : Coroutine σ Bytes :=
  if len ≤ size then readBlock c io len fun _ s => s
  else do
    -- the cache is committed before the block is read into it
    modify fun s => { s with cache := env.block len }
    let _ ← readBlock c io len fun block s => { s with cache := block }
    copy size

/-- `do_read` behind its first line: from the cache, or from the next frame. -/
def readNext (env : ReadEnv) (size : ℕ) : Coroutine σ Bytes := do
  if !(← get).cache.isEmpty then copy size
  else
    let lb ← readBlock c io 2 fun _ s => s
    let len := (ntoh lb).toNat
    if ¬len ≤ frameSize then throw badProto
    readPayload c io env size len

/-- The first line of `do_read`. -/
def ensureSalt (env : ReadEnv) : Coroutine σ Unit := do
  if !(← get).pw.isEmpty then readSalt c io env

/-- `do_read` into a buffer of the given size. -/
def doRead (env : ReadEnv) (size : ℕ) : Coroutine σ Bytes := do
  ensureSalt c io env
  readNext c io env size

/-- `write_salt`. -/
def writeSalt : Coroutine σ Unit := do transmit io (← get).encryptor.salt

/-- The loop of `do_write`. -/
def writeFrames (plain : Bytes) (ret : ℕ) : Coroutine σ ℕ :=
  if _h : plain = [] then pure ret
  else do
    let pl := min plain.length frameSize
    let length ← encrypt c (hton (UInt16.ofNat pl))
    let payload ← encrypt c (plain.take pl)
    transmit io (length ++ payload)
    writeFrames (plain.drop pl) (ret + (length ++ payload).length)
termination_by plain.length
decreasing_by
  have hpos : 0 < plain.length := List.length_pos_of_ne_nil _h
  have hfs : 0 < frameSize := by decide
  rw [List.length_drop]
  omega

/-- `do_write`. -/
def doWrite (plain : Bytes) : Coroutine σ ℕ := do
  if !(← get).encryptor.salt.isEmpty then writeSalt io
  writeFrames c io plain 0

/-- `do_connect`, and so `async_connect`. -/
def doConnect (p : Platform) (peer : Endpoint) : Coroutine σ Unit := do
  connect io
  let plain ← serialize p peer
  let _ ← doWrite c io plain

/-! ## The stream over a channel -/

section Channel

open Transfer (Source Sink bind_of_ok bind_of_error)
open Shadowsocks (eof connectionReset length_block)

variable {c}

/-- Both ends of a channel as a socket, which fails at the end of the stream, or when the
channel breaks. -/
def channel : AsyncSocket (Source UInt8 × Sink UInt8) where
  connect _ s := (none, s)
  read buf s :=
    match h : s.1.read buf.length with
    | (none, input) => (some ⟨.asio .eof, ""⟩, ⟨buf, rfl⟩, input, s.2)
    | (some w, input) => (none, ⟨w, Source.length_of_read h⟩, input, s.2)
  write w s :=
    let r := s.2.write w
    (if r.1 then none else some ⟨.asio .connectionReset, ""⟩, s.1, r.2)

theorem channel_read_of_none {buf : Bytes} {s : Source UInt8 × Sink UInt8} {input : Source UInt8}
    (h : s.1.read buf.length = (none, input)) :
    channel.read buf s = (some ⟨.asio .eof, ""⟩, ⟨buf, rfl⟩, input, s.2) := by
  simp only [channel]
  split
  · rename_i h'
    rw [h] at h'
    cases h'
    rfl
  · rename_i h'
    rw [h] at h'
    cases h'

theorem channel_read_of_some {buf w : Bytes} {s : Source UInt8 × Sink UInt8}
    {input : Source UInt8} (h : s.1.read buf.length = (some w, input)) :
    channel.read buf s = (none, ⟨w, Source.length_of_read h⟩, input, s.2) := by
  simp only [channel]
  split
  · rename_i h'
    rw [h] at h'
    cases h'
  · rename_i h'
    rw [h] at h'
    cases h'
    rfl

/-- The stream without the record. -/
def forget (s : ShadowsocksOver (Source UInt8 × Sink UInt8)) : Shadowsocks where
  pw := s.pw
  cache := s.cache
  sentry := s.sentry
  input := s.socket.1
  output := s.socket.2
  encryptor := s.encryptor
  decryptor := s.decryptor

variable {s : ShadowsocksOver (Source UInt8 × Sink UInt8)} {input : Source UInt8}

theorem receiveSalt_of_none
    (h : s.socket.1.read s.decryptor.salt.length = (none, input)) :
    receiveSalt channel s = (.error eof, { s with socket := (input, s.socket.2) }) := by
  rw [receiveSalt, channel_read_of_none h]
  rfl

theorem receiveSalt_of_some {salt : Bytes}
    (h : s.socket.1.read s.decryptor.salt.length = (some salt, input)) :
    receiveSalt channel s = (.ok (), { s with
      socket := (input, s.socket.2), decryptor := { s.decryptor with salt := salt } }) := by
  rw [receiveSalt, channel_read_of_some h]
  rfl

theorem receive_of_none {n : ℕ} (h : s.socket.1.read n = (none, input)) :
    receive channel n s = (.error eof, { s with socket := (input, s.socket.2) }) := by
  have h' : s.socket.1.read (List.replicate n (0 : UInt8)).length = (none, input) := by
    rw [List.length_replicate, h]
  rw [receive, channel_read_of_none h']
  rfl

theorem receive_of_some {n : ℕ} {w : Bytes} (h : s.socket.1.read n = (some w, input)) :
    receive channel n s = (.ok w, { s with socket := (input, s.socket.2) }) := by
  have h' : s.socket.1.read (List.replicate n (0 : UInt8)).length = (some w, input) := by
    rw [List.length_replicate, h]
  rw [receive, channel_read_of_some h']
  rfl

theorem refines_readSalt (env : ReadEnv) :
    Refines forget (readSalt c channel env) (Shadowsocks.readSalt c env) := by
  intro s
  rw [Shadowsocks.readSalt]
  rcases hread : s.socket.1.read s.decryptor.salt.length with ⟨_ | salt, input⟩
  · rw [readSalt, bind_of_error (receiveSalt_of_none hread)]
    simp only [forget, hread]
    rfl
  · rw [readSalt, bind_of_ok (receiveSalt_of_some hread)]
    simp only [forget, hread]
    obtain ⟨pw, cache, sentry, socket, encryptor, decryptor, proxy, calls⟩ := s
    cases sentry <;> cases env.replayed <;> rfl

/-- A block is cut off, and what was there stays, or it is processed, and what becomes of it is
put where it belongs. -/
theorem readBlock_channel {block : Bytes} {n : ℕ} (hblock : block.length = n)
    (put : Bytes → ShadowsocksOver (Source UInt8 × Sink UInt8) →
      ShadowsocksOver (Source UInt8 × Sink UInt8))
    (s : ShadowsocksOver (Source UInt8 × Sink UInt8)) :
    (∃ s', readBlock c channel n put s = (.error eof, s') ∧ s'.cache = s.cache
        ∧ (forget s).readBlock c block = (.error eof, block, forget s'))
      ∨ ∃ r w s', readBlock c channel n put s = (r.map fun _ => w, put w s')
        ∧ (forget s).readBlock c block = (r, w, forget s') := by
  subst hblock
  rw [Shadowsocks.readBlock]
  rcases hread : s.socket.1.read (block.length + tagSize) with ⟨_ | cipher, input⟩
  · refine Or.inl ⟨{ s with socket := (input, s.socket.2) }, ?_, rfl, ?_⟩
    · rw [readBlock, bind_of_error (receive_of_none hread)]
    · simp only [forget, hread]
  · rcases hprocess : s.decryptor.process c cipher with ⟨r, w, decryptor⟩
    refine Or.inr ⟨r, w, { s with
      socket := (input, s.socket.2), decryptor := decryptor,
      calls := s.calls ++ [.process cipher] }, ?_, ?_⟩
    · rw [readBlock, bind_of_ok (receive_of_some hread), process, hprocess]
    · simp only [forget, hread, hprocess]

theorem refines_readPayload (env : ReadEnv) (size len : ℕ) :
    Refines forget (readPayload c channel env size len)
      (Shadowsocks.readPayload c env size len) := by
  intro s
  rw [readPayload, Shadowsocks.readPayload]
  split
  · rcases readBlock_channel (c := c) (length_block env len) (fun _ s => s) s with
      ⟨s', hrun, -, hread⟩ | ⟨f | u, w, s', hrun, hread⟩
    · rw [hrun, hread]
      rfl
    · rw [hrun, hread]
      rfl
    · rw [hrun, hread]
      rfl
  · have hcommit : (modify fun s => { s with cache := env.block len } :
        Coroutine (Source UInt8 × Sink UInt8) Unit) s
          = (.ok (), { s with cache := env.block len }) := rfl
    have hforget : { forget s with cache := env.block len }
        = forget { s with cache := env.block len } := rfl
    rw [bind_of_ok hcommit, hforget]
    rcases readBlock_channel (c := c) (length_block env len) (fun w s => { s with cache := w })
      { s with cache := env.block len } with
      ⟨s', hrun, hcache, hread⟩ | ⟨f | u, w, s', hrun, hread⟩
    · have hcache' : env.block len = s'.cache := hcache.symm
      rw [bind_of_error hrun, hread, hcache']
      rfl
    · rw [bind_of_error hrun, hread]
      rfl
    · rw [bind_of_ok hrun, hread]
      rfl

theorem refines_readNext (env : ReadEnv) (size : ℕ) :
    Refines forget (readNext c channel env size) fun t =>
      if !t.cache.isEmpty then
        (.ok (t.cache.take size), { t with cache := t.cache.drop size })
      else
        match t.readBlock c [0, 0] with
        | (.error f, _, t) => (.error f, t)
        | (.ok (), lb, t) =>
          if ¬(ntoh lb).toNat ≤ frameSize then (.error badProto, t)
          else Shadowsocks.readPayload c env size (ntoh lb).toNat t := by
  intro s
  have hget : readNext c channel env size s = (if !s.cache.isEmpty then copy size
      else do
        let lb ← readBlock c channel 2 fun _ s => s
        if ¬(ntoh lb).toNat ≤ frameSize then throw badProto
        readPayload c channel env size (ntoh lb).toNat) s := rfl
  have hcache : (forget s).cache = s.cache := rfl
  have hlb : ([0, 0] : Bytes).length = 2 := rfl
  rw [hget]
  beta_reduce
  rw [hcache]
  split
  · rfl
  · rcases readBlock_channel (c := c) hlb (fun _ s => s) s with
      ⟨s', hrun, -, hread⟩ | ⟨f | u, lb, s', hrun, hread⟩
    · rw [bind_of_error hrun, hread]
      rfl
    · rw [bind_of_error hrun, hread]
      rfl
    · rw [bind_of_ok hrun, hread]
      simp only
      split
      · rfl
      · exact refines_readPayload env size _ s'

theorem refines_ensureSalt (env : ReadEnv) :
    Refines forget (ensureSalt c channel env) (Shadowsocks.ensureSalt c env) := by
  intro s
  have hget : ensureSalt c channel env s
      = (if !s.pw.isEmpty then readSalt c channel env else pure ()) s := rfl
  have hpw : (forget s).pw = s.pw := rfl
  rw [hget, Shadowsocks.ensureSalt, hpw]
  cases s.pw.isEmpty with
  | true => rfl
  | false => exact refines_readSalt env s

/-- A read over a channel is the read of the stream. -/
theorem refines_doRead (env : ReadEnv) (size : ℕ) :
    Refines forget (doRead c channel env size) (Shadowsocks.doRead c env size) := by
  intro s
  apply ((refines_ensureSalt env).bind (fun _ => refines_readNext (c := c) env size) s).trans
  rw [Shadowsocks.doRead, ← Shadowsocks.ensureSalt]
  beta_reduce
  rcases Shadowsocks.ensureSalt c env (forget s) with ⟨f | u, t⟩
  · rfl
  · rfl

theorem refines_transmit (w : Bytes) : Refines forget (transmit channel w) fun t =>
    (if (t.output.write w).1 then .ok () else .error connectionReset,
      { t with output := (t.output.write w).2 }) := by
  intro s
  rcases hwrite : s.socket.2.write w with ⟨_ | _, output⟩
  · simp [transmit, channel, forget, hwrite, thrown, connectionReset]
  · simp [transmit, channel, forget, hwrite, thrown]

theorem refines_encrypt (plain : Bytes) : Refines forget (encrypt c plain) fun t =>
    ((t.encryptor.process c plain).1,
      { t with encryptor := (t.encryptor.process c plain).2 }) :=
  fun _ => rfl

theorem refines_writeFrames (plain : Bytes) (ret : ℕ) :
    Refines forget (writeFrames c channel plain ret) (Shadowsocks.writeFrames c plain ret) := by
  induction plain, ret using writeFrames.induct with
  | case1 ret =>
      intro s
      rw [writeFrames, dif_pos rfl, Shadowsocks.writeFrames, dif_pos rfl]
      rfl
  | case2 plain ret hne pl ih =>
      intro s
      have hstep := (refines_encrypt (c := c) (hton (UInt16.ofNat pl))).bind fun length =>
        (refines_encrypt (c := c) (plain.take pl)).bind fun payload =>
          (refines_transmit (length ++ payload)).bind fun _ => ih length payload
      rw [writeFrames, dif_neg hne, Shadowsocks.writeFrames, dif_neg hne]
      apply (hstep s).trans
      simp only [pl]
      rcases (forget s).encryptor.process c (hton (UInt16.ofNat (min plain.length frameSize)))
        with ⟨f | length, encryptor⟩
      · rfl
      · simp only
        rcases encryptor.process c (plain.take (min plain.length frameSize))
          with ⟨f | payload, encryptor'⟩
        · rfl
        · simp only
          rcases (forget s).output.write (length ++ payload) with ⟨_ | _, output⟩
          · rfl
          · rfl

theorem refines_writeSalt : Refines forget (writeSalt channel) Shadowsocks.writeSalt :=
  fun s => refines_transmit s.encryptor.salt s

/-- A write over a channel is the write of the stream. -/
theorem refines_doWrite (plain : Bytes) :
    Refines forget (doWrite c channel plain) (Shadowsocks.doWrite c plain) := by
  intro s
  have hget : doWrite c channel plain s = (if !s.encryptor.salt.isEmpty then do
        writeSalt channel
        writeFrames c channel plain 0
      else writeFrames c channel plain 0) s := rfl
  have hsalt : (forget s).encryptor = s.encryptor := rfl
  rw [hget, Shadowsocks.doWrite, hsalt]
  cases s.encryptor.salt.isEmpty with
  | true => exact refines_writeFrames plain 0 s
  | false =>
      apply (refines_writeSalt.bind (fun _ => refines_writeFrames (c := c) plain 0) s).trans
      beta_reduce
      rw [if_neg Bool.false_ne_true]
      rcases (forget s).writeSalt with ⟨f | u, t⟩
      · rfl
      · rfl

end Channel

/-! ## Runs -/

/-- A call of a function of the stream, other than `async_accept`. -/
inductive Call : Type where
  | connect (peer : Endpoint)
  | read (env : ReadEnv) (size : ℕ)
  | write (plain : Bytes)

def perform (p : Platform) : Call → Coroutine σ Unit
  | .connect peer => doConnect c io p peer
  | .read env size => do let _ ← doRead c io env size
  | .write plain => do let _ ← doWrite c io plain

/-- A sequence of calls, with `async_accept` in front of it or without. -/
def run (p : Platform) (accept : Option ReadEnv) (calls : List Call) (s : ShadowsocksOver σ) :
    List (Result Unit) × ShadowsocksOver σ :=
  runAll (accept.toList.map (readSalt c io) ++ calls.map (perform c io p)) s

/-- How `Completer` hands the end of a coroutine on. -/
inductive Completion : Type where
  | handler (code : Option ErrorCode)
  | terminate
  deriving DecidableEq

/-- `Completer::operator()`. -/
def Completion.of : Result Unit → Completion
  | .ok () => .handler none
  | .error (.thrown (.systemError e)) => .handler (some e.code)
  | .error (.thrown .invalidAuthenticationTag) => .handler (some (.pichi .cryptoError))
  | .error _ => .terminate

/-! ## What every coroutine keeps -/

/-- Before the key is set: the password is there, and the salt has the length of the method. -/
structure Unkeyed (m : CryptoMethod) (pw : Bytes) (s : ShadowsocksOver σ) : Prop where
  encrypts : s.encryptor.cryptor.key.isSome = true
  pw_eq : s.pw = pw
  length_salt : s.decryptor.salt.length = m.keySize
  calls_eq : s.calls = []

/-- After the key is set: the password is gone, and the record starts with `set_psk`. -/
structure Keyed (m : CryptoMethod) (pw : Bytes) (s : ShadowsocksOver σ) : Prop where
  encrypts : s.encryptor.cryptor.key.isSome = true
  pw_eq : s.pw = []
  decrypts : s.decryptor.cryptor.key.isSome = true
  calls_eq : ∃ salt rest, s.calls = .setPsk pw salt :: rest ∧ salt.length = m.keySize
    ∧ ∀ x ∈ rest, ∃ cipher, x = .process cipher

/-- One or the other, at the start and at the end of every call. -/
def Kept (m : CryptoMethod) (pw : Bytes) (s : ShadowsocksOver σ) : Prop :=
  Unkeyed m pw s ∨ Keyed m pw s

/-- A failure that is handed on as an error code, in a state of one of the two kinds. -/
def Failed (m : CryptoMethod) (pw : Bytes) (f : Fault) (s : ShadowsocksOver σ) : Prop :=
  Kept m pw s ∧ Completion.of (.error f) ≠ .terminate

variable {c io} {m : CryptoMethod} {pw : Bytes}

theorem Kept.encrypts {s : ShadowsocksOver σ} (h : Kept m pw s) :
    s.encryptor.cryptor.key.isSome = true := by
  rcases h with h | h
  · exact h.encrypts
  · exact h.encrypts

/-- The kinds do not depend on the socket and the cache. -/
theorem Kept.with {s : ShadowsocksOver σ} (h : Kept m pw s) (socket : σ) (cache : Bytes) :
    Kept m pw { s with socket := socket, cache := cache } := by
  rcases h with ⟨hencrypts, hpw, hsalt, hcalls⟩ | ⟨hencrypts, hpw, hkey, hcalls⟩
  · exact Or.inl ⟨hencrypts, hpw, hsalt, hcalls⟩
  · exact Or.inr ⟨hencrypts, hpw, hkey, hcalls⟩

theorem Keyed.with {s : ShadowsocksOver σ} (h : Keyed m pw s) (socket : σ) (cache : Bytes) :
    Keyed m pw { s with socket := socket, cache := cache } :=
  ⟨h.encrypts, h.pw_eq, h.decrypts, h.calls_eq⟩

theorem completion_thrown (e : SystemError) :
    Completion.of (.error (.thrown (.systemError e))) ≠ .terminate := by
  rw [Completion.of]
  exact Completion.noConfusion

theorem failed_badProto {s : ShadowsocksOver σ} (h : Kept m pw s) : Failed m pw badProto s :=
  ⟨h, completion_thrown _⟩

/-- An operation of the socket, after which the state is of a kind whether it failed or not. -/
theorem triple_thrown {α : Type} {P Q : ShadowsocksOver σ → Prop} {x : Coroutine σ α}
    (hx : ∀ s, P s → ∃ e a s', x s = ((thrown e).map fun _ => a, s') ∧ Q s' ∧ Kept m pw s') :
    Triple P x (fun _ => Q) (Failed m pw) := by
  intro s hs
  obtain ⟨e, a, s', hrun, hQ, hkept⟩ := hx s hs
  rw [hrun]
  cases e with
  | none => exact Or.inl ⟨a, s', rfl, hQ⟩
  | some e => exact Or.inr ⟨_, s', rfl, hkept, completion_thrown e⟩

theorem triple_receiveSalt :
    Triple (Unkeyed m pw) (receiveSalt io) (fun _ => Unkeyed m pw) (Failed m pw) := by
  apply triple_thrown
  intro s hs
  rcases hread : io.read s.decryptor.salt s.socket with ⟨e, salt, socket⟩
  have hs' : Unkeyed m pw { s with
      socket := socket, decryptor := { s.decryptor with salt := salt.1 } } :=
    ⟨hs.encrypts, hs.pw_eq, salt.2.trans hs.length_salt, hs.calls_eq⟩
  refine ⟨e, (), _, ?_, hs', Or.inl hs'⟩
  rw [receiveSalt, hread]
  cases e <;> rfl

theorem triple_receive (n : ℕ) :
    Triple (Keyed m pw) (receive io n) (fun _ => Keyed m pw) (Failed m pw) := by
  apply triple_thrown
  intro s hs
  rcases hread : io.read (List.replicate n 0) s.socket with ⟨e, w, socket⟩
  have hs' := hs.with socket s.cache
  refine ⟨e, w.1, _, ?_, hs', Or.inr hs'⟩
  rw [receive, hread]

theorem triple_transmit (w : Bytes) :
    Triple (Kept m pw) (transmit io w) (fun _ => Kept m pw) (Failed m pw) := by
  apply triple_thrown
  intro s hs
  rcases hwrite : io.write w s.socket with ⟨e, socket⟩
  have hs' := hs.with socket s.cache
  refine ⟨e, (), _, ?_, hs', hs'⟩
  rw [transmit, hwrite]
  cases e <;> rfl

/-- The encryptor has its key from the start. -/
theorem triple_encrypt (plain : Bytes) :
    Triple (Kept m pw) (encrypt c plain : Coroutine σ Bytes) (fun _ => Kept m pw)
      (Failed m pw) := by
  intro s hs
  obtain ⟨key, hkey⟩ := Option.isSome_iff_exists.mp hs.encrypts
  refine Or.inl ⟨_, _, by rw [encrypt, Encryptor.process, Cryptor.encrypt, hkey], ?_⟩
  rcases hs with ⟨-, hpw, hsalt, hcalls⟩ | ⟨-, hpw, hdecrypts, hcalls⟩
  · exact Or.inl ⟨rfl, hpw, hsalt, hcalls⟩
  · exact Or.inr ⟨rfl, hpw, hdecrypts, hcalls⟩

/-- A decryptor with a key keeps it, and fails by a wrong tag only. -/
theorem decryptor_process {d : Decryptor} (hd : d.cryptor.key.isSome = true) (cipher : Bytes) :
    (d.process c cipher).2.2.cryptor.key.isSome = true
      ∧ ((d.process c cipher).1 = .ok ()
        ∨ (d.process c cipher).1 = .error (.thrown .invalidAuthenticationTag)) := by
  obtain ⟨key, hkey⟩ := Option.isSome_iff_exists.mp hd
  simp only [Decryptor.process, Cryptor.decrypt, hkey]
  split
  · exact ⟨rfl, Or.inl rfl⟩
  · exact ⟨hd, Or.inr rfl⟩

theorem triple_process (cipher : Bytes) {put : Bytes → ShadowsocksOver σ → ShadowsocksOver σ}
    (hput : ∀ w s, Keyed m pw s → Keyed m pw (put w s)) :
    Triple (Keyed m pw) (process c cipher put) (fun _ => Keyed m pw) (Failed m pw) := by
  intro s hs
  obtain ⟨hdecrypts, hend⟩ := decryptor_process (c := c) hs.decrypts cipher
  rcases hprocess : s.decryptor.process c cipher with ⟨r, plain, decryptor⟩
  rw [hprocess] at hdecrypts hend
  obtain ⟨salt, rest, hcalls, hsalt, hrest⟩ := hs.calls_eq
  have hs' : Keyed m pw { s with
      decryptor := decryptor, calls := s.calls ++ [.process cipher] } := by
    refine ⟨hs.encrypts, hs.pw_eq, hdecrypts, salt, rest ++ [.process cipher], ?_, hsalt, ?_⟩
    · rw [hcalls, List.cons_append]
    · intro x hx
      rcases List.mem_append.mp hx with hx | hx
      · exact hrest x hx
      · exact ⟨cipher, List.mem_singleton.mp hx⟩
  have hrun : process c cipher put s = (r.map fun _ => plain, put plain { s with
      decryptor := decryptor, calls := s.calls ++ [.process cipher] }) := by
    rw [process, hprocess]
  rcases hend with rfl | rfl
  · exact Or.inl ⟨_, _, hrun, hput _ _ hs'⟩
  · exact Or.inr ⟨_, _, hrun, Or.inr (hput _ _ hs'), Completion.noConfusion⟩

theorem triple_readBlock (n : ℕ) {put : Bytes → ShadowsocksOver σ → ShadowsocksOver σ}
    (hput : ∀ w s, Keyed m pw s → Keyed m pw (put w s)) :
    Triple (Keyed m pw) (readBlock c io n put) (fun _ => Keyed m pw) (Failed m pw) :=
  (triple_receive (n + tagSize)).bind fun cipher => triple_process cipher hput

theorem triple_setPsk :
    Triple (Unkeyed m pw) (setPsk c : Coroutine σ Unit)
      (fun _ s => Keyed m pw { s with pw := [] }) (Failed m pw) := by
  apply Triple.modify
  intro s hs
  refine ⟨hs.encrypts, rfl, rfl, s.decryptor.salt, [], ?_, hs.length_salt, ?_⟩
  · rw [hs.calls_eq, hs.pw_eq, List.nil_append]
  · exact fun x hx => absurd hx List.not_mem_nil

/-- A salt that was not read or not taken leaves the password for another try. -/
theorem triple_readSalt (env : ReadEnv) :
    Triple (Unkeyed m pw) (readSalt c io env) (fun _ => Keyed m pw) (Failed m pw) := by
  apply triple_receiveSalt.bind
  intro _
  apply Triple.get_bind
  intro s hs
  apply Triple.when_bind (I := Unkeyed m pw)
  · intro _
    apply (Triple.throw badProto).weaken_pre
    rintro _ rfl
    exact failed_badProto (Or.inl hs)
  · rintro _ _ rfl
    exact hs
  · apply triple_setPsk.bind
    intro _
    exact Triple.modify fun s hs => hs

theorem triple_copy (size : ℕ) :
    Triple (Keyed m pw) (copy size : Coroutine σ Bytes) (fun _ => Keyed m pw) (Failed m pw) :=
  fun s hs => Or.inl ⟨_, _, rfl, hs.with s.socket (s.cache.drop size)⟩

theorem triple_commit (block : Bytes) :
    Triple (Keyed m pw) (modify fun s => { s with cache := block } : Coroutine σ Unit)
      (fun _ => Keyed m pw) (Failed m pw) :=
  Triple.modify fun s hs => hs.with s.socket block

theorem triple_readPayload (env : ReadEnv) (size len : ℕ) :
    Triple (Keyed m pw) (readPayload c io env size len) (fun _ => Keyed m pw) (Failed m pw) := by
  apply Triple.ite
  · exact fun _ => triple_readBlock len fun _ _ h => h
  · intro _
    apply (triple_commit (env.block len)).bind
    intro _
    apply (triple_readBlock len fun block s hs => hs.with s.socket block).bind
    exact fun _ => triple_copy size

theorem triple_readNext (env : ReadEnv) (size : ℕ) :
    Triple (Keyed m pw) (readNext c io env size) (fun _ => Keyed m pw) (Failed m pw) := by
  apply Triple.get_bind
  intro s hs
  apply Triple.weaken_pre (P := Keyed m pw)
  · apply Triple.ite
    · exact fun _ => triple_copy size
    · intro _
      apply (triple_readBlock 2 fun _ _ h => h).bind
      intro lb
      apply Triple.when_bind (I := Keyed m pw)
      · exact fun _ => (Triple.throw badProto).weaken_pre fun s hs => failed_badProto (Or.inr hs)
      · exact fun _ s hs => hs
      · exact triple_readPayload env size _
  · rintro _ rfl
    exact hs

/-- The salt is read exactly if there is a password, and so exactly if the key is not set. -/
theorem triple_ensureSalt (hne : pw ≠ []) (env : ReadEnv) :
    Triple (Kept m pw) (ensureSalt c io env) (fun _ => Keyed m pw) (Failed m pw) := by
  apply Triple.get_bind
  intro s hs
  apply Triple.ite
  · intro hpw
    apply (triple_readSalt env).weaken_pre
    rintro _ rfl
    rcases hs with hs | hs
    · exact hs
    · rw [hs.pw_eq] at hpw
      exact absurd hpw Bool.false_ne_true
  · intro hpw
    apply (Triple.pure (Q := fun _ => Keyed m pw) ()).weaken_pre
    rintro _ rfl
    rcases hs with hs | hs
    · rw [hs.pw_eq] at hpw
      simp [hne] at hpw
    · exact hs

theorem triple_doRead (hne : pw ≠ []) (env : ReadEnv) (size : ℕ) :
    Triple (Kept m pw) (doRead c io env size) (fun _ => Keyed m pw) (Failed m pw) :=
  (triple_ensureSalt hne env).bind fun _ => triple_readNext env size

/-- The writing side has nothing to do with the decryptor. -/
theorem triple_writeFrames (plain : Bytes) (ret : ℕ) :
    Triple (Kept m pw) (writeFrames c io plain ret) (fun _ => Kept m pw) (Failed m pw) := by
  induction plain, ret using writeFrames.induct with
  | case1 ret =>
      rw [writeFrames, dif_pos rfl]
      exact Triple.pure (Q := fun _ => Kept m pw) ret
  | case2 plain ret hne pl ih =>
      rw [writeFrames, dif_neg hne]
      apply (triple_encrypt _).bind
      intro length
      apply (triple_encrypt _).bind
      intro payload
      apply (triple_transmit _).bind
      exact fun _ => ih length payload

theorem triple_doWrite (plain : Bytes) :
    Triple (Kept m pw) (doWrite c io plain) (fun _ => Kept m pw) (Failed m pw) := by
  apply Triple.get_bind
  intro s hs
  apply Triple.when_bind (I := Kept m pw)
  · intro _
    apply Triple.get_bind
    rintro _ rfl
    apply (triple_transmit _).weaken_pre
    rintro _ rfl
    exact hs
  · rintro _ _ rfl
    exact hs
  · exact triple_writeFrames plain 0

theorem triple_connect :
    Triple (Kept m pw) (connect io) (fun _ => Kept m pw) (Failed m pw) := by
  apply triple_thrown
  intro s hs
  rcases hconnect : io.connect s.proxy s.socket with ⟨e, socket⟩
  have hs' := hs.with socket s.cache
  refine ⟨e, (), _, ?_, hs', hs'⟩
  rw [connect, hconnect]
  cases e <;> rfl

theorem triple_serialize (p : Platform) (peer : Endpoint) :
    Triple (Kept m pw) (serialize p peer : Coroutine σ Bytes) (fun _ => Kept m pw)
      (Failed m pw) := by
  intro s hs
  rw [serialize]
  cases serializeEndpoint p peer frameSize with
  | ok plain => exact Or.inl ⟨plain, s, rfl, hs⟩
  | error e => exact Or.inr ⟨_, s, rfl, hs, completion_thrown e⟩

theorem triple_doConnect (p : Platform) (peer : Endpoint) :
    Triple (Kept m pw) (doConnect c io p peer) (fun _ => Kept m pw) (Failed m pw) := by
  apply triple_connect.bind
  intro _
  apply (triple_serialize p peer).bind
  intro plain
  apply (triple_doWrite plain).bind
  exact fun _ => Triple.pure (Q := fun _ => Kept m pw) ()

theorem triple_perform (hne : pw ≠ []) (p : Platform) (call : Call) :
    Triple (Kept m pw) (perform c io p call) (fun _ => Kept m pw) (Failed m pw) := by
  cases call with
  | connect peer => exact triple_doConnect p peer
  | read env size =>
      apply (triple_doRead hne env size).bind
      intro _
      exact (Triple.pure ()).weaken_pre fun _ => Or.inr
  | write plain =>
      apply (triple_doWrite plain).bind
      exact fun _ => Triple.pure (Q := fun _ => Kept m pw) ()

/-! ## The record of a run -/

/-- The calls the decryptor should get: its key once, with the full password and a salt of the
right length, and before that nothing to process. -/
structure KeyedOnce (m : CryptoMethod) (pw : Bytes) (calls : List DecryptorCall) : Prop where
  keyed : ∀ before cipher after, calls = before ++ .process cipher :: after →
    ∃ salt, .setPsk pw salt ∈ before
  once : ∀ before pw₁ salt₁ after, calls = before ++ .setPsk pw₁ salt₁ :: after →
    ∀ pw₂ salt₂, .setPsk pw₂ salt₂ ∉ after
  full : ∀ pw' salt, .setPsk pw' salt ∈ calls → pw' = pw ∧ salt.length = m.keySize

theorem keyedOnce_nil : KeyedOnce m pw [] where
  keyed := by
    intro before cipher after h
    simp at h
  once := by
    intro before pw₁ salt₁ after h
    simp at h
  full := fun _ _ h => absurd h List.not_mem_nil

theorem keyedOnce_cons {salt : Bytes} {rest : List DecryptorCall}
    (hsalt : salt.length = m.keySize) (hrest : ∀ x ∈ rest, ∃ cipher, x = .process cipher) :
    KeyedOnce m pw (.setPsk pw salt :: rest) := by
  have hnot : ∀ pw' salt', .setPsk pw' salt' ∉ rest := by
    intro pw' salt' h
    obtain ⟨cipher, hx⟩ := hrest _ h
    exact DecryptorCall.noConfusion hx
  constructor
  · intro before cipher after h
    cases before with
    | nil => exact DecryptorCall.noConfusion (List.cons.inj h).1
    | cons x before =>
        obtain ⟨rfl, -⟩ := List.cons.inj h
        exact ⟨salt, List.mem_cons_self⟩
  · intro before pw₁ salt₁ after h
    cases before with
    | nil =>
        obtain ⟨-, rfl⟩ := List.cons.inj h
        exact hnot
    | cons x before =>
        obtain ⟨-, rfl⟩ := List.cons.inj h
        exact absurd (List.mem_append_right before List.mem_cons_self) (hnot pw₁ salt₁)
  · intro pw' salt' h
    rcases List.mem_cons.mp h with h | h
    · obtain ⟨rfl, rfl⟩ := DecryptorCall.setPsk.inj h
      exact ⟨rfl, hsalt⟩
    · exact absurd h (hnot pw' salt')

theorem Kept.keyedOnce {s : ShadowsocksOver σ} (h : Kept m pw s) : KeyedOnce m pw s.calls := by
  rcases h with h | h
  · rw [h.calls_eq]
    exact keyedOnce_nil
  · obtain ⟨salt, rest, hcalls, hsalt, hrest⟩ := h.calls_eq
    rw [hcalls]
    exact keyedOnce_cons hsalt hrest

theorem unkeyed_make (salt : Bytes) (sentry : Bool) (proxy : Endpoint) (socket : σ) :
    Unkeyed m pw (make c m pw salt sentry proxy socket) :=
  ⟨rfl, rfl, List.length_replicate, rfl⟩

/-- Every call of a run keeps the kinds of states, and none of them ends in `std::terminate`. -/
theorem run_spec (hne : pw ≠ []) (p : Platform) (accept : Option ReadEnv) (calls : List Call)
    {s : ShadowsocksOver σ} (hs : Unkeyed m pw s) :
    Kept m pw (run c io p accept calls s).2
      ∧ ∀ f, .error f ∈ (run c io p accept calls s).1 →
        Completion.of (.error f) ≠ .terminate := by
  have hcalls : ∀ s, Kept m pw s → Kept m pw (runAll (calls.map (perform c io p)) s).2
      ∧ ∀ f, .error f ∈ (runAll (calls.map (perform c io p)) s).1 →
        Completion.of (.error f) ≠ .terminate := by
    intro s hs
    apply runAll_of_forall _ hs
    intro x hx
    obtain ⟨call, -, rfl⟩ := List.mem_map.mp hx
    exact triple_perform hne p call
  cases accept with
  | none => exact hcalls s (Or.inl hs)
  | some env =>
      have haccept : Triple (Unkeyed m pw) (readSalt c io env) (fun _ => Kept m pw)
          (Failed m pw) :=
        (triple_readSalt env).weaken (fun _ h => h) (fun _ _ => Or.inr) fun _ _ h => h
      exact runAll_cons haccept hcalls hs

/-- The decryptor is never used without its key. -/
theorem keyed_run {v : Json} {opt : ShadowsocksOption} (hopt : ShadowsocksOption.parse v = .ok opt)
    (c : Crypto) (io : AsyncSocket σ) (p : Platform) (salt : Bytes) (sentry : Bool)
    (proxy : Endpoint) (socket : σ) (accept : Option ReadEnv) (calls : List Call) :
    let r := run c io p accept calls (make c opt.method opt.password salt sentry proxy socket)
    KeyedOnce opt.method opt.password r.2.calls
      ∧ ∀ x ∈ r.1, x ≠ .error (.thrown .keyNotSet) ∧ Completion.of x ≠ .terminate := by
  intro r
  obtain ⟨hkept, hfail⟩ : Kept opt.method opt.password r.2
      ∧ ∀ f, .error f ∈ r.1 → Completion.of (.error f) ≠ .terminate :=
    run_spec (ShadowsocksOption.password_ne_nil hopt) p accept calls
      (unkeyed_make salt sentry proxy socket)
  refine ⟨hkept.keyedOnce, fun x hx => ?_⟩
  have hend : Completion.of x ≠ .terminate := by
    cases x with
    | ok u => exact Completion.noConfusion
    | error f => exact hfail f hx
  refine ⟨?_, hend⟩
  rintro rfl
  exact hend rfl

namespace Example

/-- A socket with a script: the answers of its reads, an answer of the wrong length for a
failure. -/
def socket : AsyncSocket (List Bytes) where
  connect _ s := (none, s)
  read buf s :=
    let w := s.headD []
    if h : w.length = buf.length then (none, ⟨w, h⟩, s.tail)
    else (some ⟨.asio .eof, ""⟩, ⟨buf, rfl⟩, s.tail)
  write _ s := (none, s)

/-- The salt and a frame of one byte, behind a failure. -/
def script : List Bytes :=
  [[], lit "0123456789abcdef",
    [248, 120, 120, 185, 250, 59, 124, 189, 254, 63, 128, 193, 2, 67, 132, 197, 6, 71],
    [22, 159, 62, 221, 124, 27, 186, 89, 248, 151, 54, 213, 116, 19, 178, 81, 240]]

/-- An ingress whose `async_accept` fails, and which is read from twice all the same. -/
def served : List (Result Unit) × ShadowsocksOver (List Bytes) :=
  run Reference.crypto socket Reference.platform (some {}) [.read {} 1, .read {} 1]
    (make Reference.crypto .aes128Gcm (lit "pw") (lit "fedcba9876543210") true
      ⟨.domainName, [], 0⟩ script)

end Example

/-- The key is set by the first read, which also processes the two blocks of the frame. -/
theorem keyed_run_example :
    Example.served.2.calls.length = 3
      ∧ KeyedOnce .aes128Gcm (lit "pw") Example.served.2.calls
      ∧ ∀ x ∈ Example.served.1, x ≠ .error (.thrown .keyNotSet)
        ∧ Completion.of x ≠ .terminate := by
  have hopt : ShadowsocksOption.parse (.obj [field "password" (.str (lit "pw")),
      field "method" (.str (lit "aes-128-gcm"))]) = .ok ⟨lit "pw", .aes128Gcm⟩ := rfl
  have hrun := keyed_run hopt Reference.crypto Example.socket Reference.platform
    (lit "fedcba9876543210") true ⟨.domainName, [], 0⟩ Example.script (some {})
    [.read {} 1, .read {} 1]
  refine ⟨by decide +kernel, ?_⟩
  simp only at hrun
  exact hrun

end ShadowsocksOver

end Pichi
