/-
# The Shadowsocks stream

`stream/shadowsocks.hpp` and `stream/shadowsocks.cpp`.  A writer sends a random salt and
then frames of at most `0x3fff` plaintext bytes; a frame is two AEAD blocks, the length
of the payload and the payload, each under its own nonce.  A reader hands out a frame
either directly into the caller's buffer or, if it does not fit, through a cache.

The functions of Botan and libsodium are the parameter `Crypto`.  `Cipher_Mode::process`
works in place and `finish` looks at the tag afterwards, so that the memory of a block
whose tag is wrong holds what the cipher made of it; the model keeps track of that memory,
and of the memory of the cache that is committed before it is written.
-/
import Pichi.Endpoint

namespace Pichi

/-! ## Ciphers -/

/-- The functions of Botan the stream is built on. -/
structure Crypto where
  /-- `MD5`. -/
  md5 : Bytes → { d : Bytes // d.length = 16 }
  /-- `HKDF(SHA-1)`: the length of the key, the secret, the salt and the label. -/
  hkdf : ℕ → Bytes → Bytes → Bytes → Bytes
  /-- The cipher applied in place, under a key and a nonce. -/
  encrypt : CryptoMethod → Bytes → Bytes → Bytes → Bytes
  /-- Its inverse. -/
  decrypt : CryptoMethod → Bytes → Bytes → Bytes → Bytes
  /-- The tag of a ciphertext. -/
  tag : CryptoMethod → Bytes → Bytes → Bytes → Bytes

/-- What the stream relies on: the cipher keeps the length, undoes itself under equal key
and nonce, and adds a tag of 16 bytes. -/
structure Crypto.Sound (c : Crypto) : Prop where
  length_encrypt : ∀ m key nonce x, (c.encrypt m key nonce x).length = x.length
  decrypt_encrypt : ∀ m key nonce x, c.decrypt m key nonce (c.encrypt m key nonce x) = x
  length_tag : ∀ m key nonce x, (c.tag m key nonce x).length = 16

namespace CryptoMethod

/-- `NONCE_SIZE`. -/
def nonceSize : CryptoMethod → ℕ
  | .aes128Gcm | .aes192Gcm | .aes256Gcm | .chacha20IetfPoly1305 => 12
  | .xchacha20IetfPoly1305 => 24

/-- `KEY_SIZE`. -/
def keySize : CryptoMethod → ℕ
  | .aes128Gcm => 16
  | .aes192Gcm => 24
  | .aes256Gcm | .chacha20IetfPoly1305 | .xchacha20IetfPoly1305 => 32

end CryptoMethod

/-- `sodium_increment`: add one to a number in little-endian order. -/
def sodiumIncrement : Bytes → Bytes
  | [] => []
  | b :: t => if b = 255 then 0 :: sodiumIncrement t else (b + 1) :: t

/-- The loop of `generate_psk`; every round adds one digest. -/
def pskLoop (c : Crypto) (pw : Bytes) (size : ℕ) : ℕ → ℕ → Bytes → Bytes → Bytes
  | 0, _, _, data => data
  | fuel + 1, i, tmp, data =>
    if i < size then
      let digest := (c.md5 (tmp ++ pw)).1
      pskLoop c pw size fuel (i + digest.length) digest (data ++ digest)
    else data

/-- `generate_psk`. -/
def generatePsk (c : Crypto) (pw : Bytes) (size : ℕ) : Bytes :=
  (pskLoop c pw size size 0 [] []).take size

/-- `detail::Cryptor`. -/
structure Cryptor where
  method : CryptoMethod
  key : Option Bytes
  nonce : Bytes

namespace Cryptor

/-- The constructor. -/
def make (method : CryptoMethod) : Cryptor :=
  ⟨method, none, List.replicate method.nonceSize 0⟩

/-- The key a password and a salt give. -/
def deriveKey (c : Crypto) (pw salt : Bytes) : Bytes :=
  c.hkdf salt.length (generatePsk c pw salt.length) salt (lit "ss-subkey")

/-- `set_psk`. -/
def setPsk (c : Crypto) (pw salt : Bytes) (k : Cryptor) : Cryptor :=
  { k with key := some (deriveKey c pw salt) }

/-- `process` of an encrypting cryptor: the block and its tag. -/
def encrypt (c : Crypto) (orig : Bytes) (k : Cryptor) : Result Bytes × Cryptor :=
  match k.key with
  | none => (.error (.thrown .keyNotSet), k)
  | some key =>
    let cipher := c.encrypt k.method key k.nonce orig
    (.ok (cipher ++ c.tag k.method key k.nonce cipher),
      { k with nonce := sodiumIncrement k.nonce })

/-- `process` of a decrypting cryptor.  The second component is what it leaves in the
destination. -/
def decrypt (c : Crypto) (orig : Bytes) (k : Cryptor) : Result Unit × Bytes × Cryptor :=
  let n := orig.length - 16
  match k.key with
  | none => (.error (.thrown .keyNotSet), orig.take n, k)
  | some key =>
    let plain := c.decrypt k.method key k.nonce (orig.take n)
    if c.tag k.method key k.nonce (orig.take n) = orig.drop n then
      (.ok (), plain, { k with nonce := sodiumIncrement k.nonce })
    -- what was decrypted is in the destination when the tag turns out wrong
    else (.error (.thrown .invalidAuthenticationTag), plain, k)

end Cryptor

/-- `detail::Encryptor`. -/
structure Encryptor where
  cryptor : Cryptor
  salt : Bytes

namespace Encryptor

/-- The constructor, with the salt it was given or drew at random. -/
def make (c : Crypto) (method : CryptoMethod) (pw salt : Bytes) : Encryptor :=
  ⟨(Cryptor.make method).setPsk c pw salt, salt⟩

/-- `process`; the salt is dropped with the first block. -/
def process (c : Crypto) (plain : Bytes) (e : Encryptor) : Result Bytes × Encryptor :=
  let r := e.cryptor.encrypt c plain
  (r.1, ⟨r.2, []⟩)

end Encryptor

/-- `detail::Decryptor`. -/
structure Decryptor where
  cryptor : Cryptor
  salt : Bytes

namespace Decryptor

/-- The constructor. -/
def make (method : CryptoMethod) : Decryptor :=
  ⟨Cryptor.make method, List.replicate method.keySize 0⟩

/-- `set_psk`. -/
def setPsk (c : Crypto) (pw : Bytes) (d : Decryptor) : Decryptor :=
  ⟨d.cryptor.setPsk c pw d.salt, []⟩

/-- `process`. -/
def process (c : Crypto) (cipher : Bytes) (d : Decryptor) : Result Unit × Bytes × Decryptor :=
  let r := d.cryptor.decrypt c cipher
  (r.1, r.2.1, { d with cryptor := r.2.2 })

end Decryptor

/-! ## The stream -/

/-- `FRAME_SIZE`. -/
def frameSize : ℕ := 0x3fff

/-- `TAG_SIZE`. -/
def tagSize : ℕ := 16

/-- `Shadowsocks<Socket>`: the password until the salt has been read, the cache, whether
there is a sentry, both ends of the socket, and the two ciphers. -/
structure Shadowsocks where
  pw : Bytes
  cache : Bytes := []
  sentry : Bool
  input : Transfer.Source UInt8
  output : Transfer.Sink UInt8
  encryptor : Encryptor
  decryptor : Decryptor

/-- What the surroundings of a read decide: whether the sentry has seen the salt, and
what memory holds before it is written. -/
structure ReadEnv where
  replayed : Bool := false
  memory : Bytes := []

/-- A block of `n` bytes before anything is read into it. -/
def ReadEnv.block (env : ReadEnv) (n : ℕ) : Bytes := (env.memory ++ List.replicate n 0).take n

namespace Shadowsocks

variable (c : Crypto)

/-- The end of the stream. -/
def eof : Fault := .thrown (.systemError ⟨.asio .eof, ""⟩)

/-- A socket that broke. -/
def connectionReset : Fault := .thrown (.systemError ⟨.asio .connectionReset, ""⟩)

/-- The constructors. -/
def make (method : CryptoMethod) (pw salt : Bytes) (sentry : Bool)
    (input : Transfer.Source UInt8) (output : Transfer.Sink UInt8) : Shadowsocks where
  pw := pw
  sentry := sentry
  input := input
  output := output
  encryptor := Encryptor.make c method pw salt
  decryptor := Decryptor.make method

/-- `read_salt`. -/
def readSalt (env : ReadEnv) (s : Shadowsocks) : Result Unit × Shadowsocks :=
  match s.input.read s.decryptor.salt.length with
  | (none, input) => (.error eof, { s with input := input })
  | (some salt, input) =>
    let s := { s with input := input, decryptor := { s.decryptor with salt := salt } }
    if s.sentry && env.replayed then (.error badProto, s)
    else (.ok (), { s with decryptor := s.decryptor.setPsk c s.pw, pw := [] })

/-- `write_salt`. -/
def writeSalt (s : Shadowsocks) : Result Unit × Shadowsocks :=
  let r := s.output.write s.encryptor.salt
  (if r.1 then .ok () else .error connectionReset, { s with output := r.2 })

/-- `read_block` into a block of memory; the second component is what it holds then. -/
def readBlock (block : Bytes) (s : Shadowsocks) : Result Unit × Bytes × Shadowsocks :=
  match s.input.read (block.length + tagSize) with
  | (none, input) => (.error eof, block, { s with input := input })
  | (some cipher, input) =>
    let r := s.decryptor.process c cipher
    (r.1, r.2.1, { s with input := input, decryptor := r.2.2 })

/-- `do_read` into a buffer of the given size: the bytes it delivers. -/
def doRead (env : ReadEnv) (size : ℕ) (s : Shadowsocks) : Result Bytes × Shadowsocks :=
  match if s.pw.isEmpty then (.ok (), s) else s.readSalt c env with
  | (.error f, s) => (.error f, s)
  | (.ok (), s) =>
    if !s.cache.isEmpty then
      (.ok (s.cache.take size), { s with cache := s.cache.drop size })
    else
      match s.readBlock c [0, 0] with
      | (.error f, _, s) => (.error f, s)
      | (.ok (), lb, s) =>
        let len := (ntoh lb).toNat
        if ¬len ≤ frameSize then (.error badProto, s)
        else if len ≤ size then
          -- the block fits into the caller's buffer
          match s.readBlock c (env.block len) with
          | (.error f, _, s) => (.error f, s)
          | (.ok (), block, s) => (.ok block, s)
        else
          -- the cache is committed before the block is read into it
          match { s with cache := env.block len }.readBlock c (env.block len) with
          | (.error f, block, s) => (.error f, { s with cache := block })
          | (.ok (), block, s) => (.ok (block.take size), { s with cache := block.drop size })

/-- The loop of `do_write`; `ret` counts what it has sent. -/
def writeFrames (plain : Bytes) (ret : ℕ) (s : Shadowsocks) : Result ℕ × Shadowsocks :=
  if _h : plain = [] then (.ok ret, s)
  else
    let pl := min plain.length frameSize
    match s.encryptor.process c (hton (UInt16.ofNat pl)) with
    | (.error f, encryptor) => (.error f, { s with encryptor := encryptor })
    | (.ok length, encryptor) =>
      match encryptor.process c (plain.take pl) with
      | (.error f, encryptor) => (.error f, { s with encryptor := encryptor })
      | (.ok payload, encryptor) =>
        let r := s.output.write (length ++ payload)
        let s := { s with encryptor := encryptor, output := r.2 }
        -- `ret += cl` counts ciphertext
        if r.1 then writeFrames (plain.drop pl) (ret + (length ++ payload).length) s
        else (.error connectionReset, s)
termination_by plain.length
decreasing_by
  have hpos : 0 < plain.length := List.length_pos_of_ne_nil _h
  have hfs : 0 < frameSize := by decide
  rw [List.length_drop]
  omega

/-- `do_write`. -/
def doWrite (plain : Bytes) (s : Shadowsocks) : Result ℕ × Shadowsocks :=
  match if s.encryptor.salt.isEmpty then (.ok (), s) else s.writeSalt with
  | (.error f, s) => (.error f, s)
  | (.ok (), s) => writeFrames c plain 0 s

/-- `stream::write`: asio's composed write, which offers at most 65536 bytes at a time. -/
def write (buf : Bytes) (s : Shadowsocks) : Result Unit × Shadowsocks :=
  Transfer.writeAll 65536 (fun s plain => doWrite c plain s) s buf

end Shadowsocks

end Pichi
