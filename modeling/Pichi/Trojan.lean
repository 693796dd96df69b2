/-
# The Trojan adapters

`adapter/tcp/trojan.cpp`.  The ingress reads the request of a client, the hash of a
password, a command and an endpoint, out of a cache of 512 bytes that it fills from
the layer below as it goes; what it has read too much is handed out by `recv` afterwards,
and if the request is not one, everything is handed out and the connection is directed to
a fallback.

The cache is a `flat_static_buffer` of which only one window was ever prepared.  The model
keeps its memory, the bounds of the committed bytes, the count of the bytes taken from
them, and the window `available` the next read goes to, which the source advances
separately.
-/
import Pichi.EndpointCodec
import Pichi.VoOptions

namespace Pichi

open Transfer (Source Sink)

namespace Trojan

/-! ## Memory -/

/-- The memory of the cache; what it holds at first is not determined. -/
abbrev Memory := ℕ → UInt8

/-- The `n` bytes from `offset` on. -/
def load (memory : Memory) (offset n : ℕ) : Bytes :=
  (List.range n).map fun i => memory (offset + i)

/-- Write bytes from `offset` on. -/
def store (memory : Memory) (offset : ℕ) (w : Bytes) : Memory := fun i =>
  if offset ≤ i ∧ i < offset + w.length then w.getD (i - offset) 0 else memory i

/-- A `MutableBuffer` into the memory. -/
structure Window where
  offset : ℕ
  size : ℕ
  deriving DecidableEq, Repr

/-- `Buffer::operator+=`, which stops at the end of the buffer. -/
def Window.advance (w : Window) (n : ℕ) : Window :=
  ⟨w.offset + min n w.size, if n ≤ w.size then w.size - n else 0⟩

/-! ## The cache -/

/-- `trojan::Cache`: the committed bytes are those from `first` to `last`. -/
structure Cache where
  memory : Memory
  first : ℕ
  last : ℕ
  taken : ℕ
  available : Window

/-- The capacity of the buffer. -/
def capacity : ℕ := 512

namespace Cache

/-- The constructor, over memory that holds anything. -/
def make (memory : Memory) : Cache := ⟨memory, 0, 0, 0, ⟨0, capacity⟩⟩

/-- `size`. -/
def size (c : Cache) : ℕ := (c.last - c.first) - c.taken

/-- The body of the loop of `read_from`: what was read is in the window; it is committed,
and the window is advanced by the size of the buffer. -/
def commit (got : Bytes) (c : Cache) : Cache :=
  let last := c.last + min got.length (capacity - c.last)
  { c with
    memory := store c.memory c.available.offset got
    last := last
    -- `available_ += buf_.size()`: everything committed so far, not what this read delivered
    available := c.available.advance (last - c.first) }

/-- The failure of `assertTrue(n <= size())`. -/
def misc : Fault := .thrown (.systemError ⟨.pichi .misc, ""⟩)

/-- `take(size_t)`. -/
def take (n : ℕ) (c : Cache) : Result Bytes × Cache :=
  if n ≤ c.size then
    (.ok (load c.memory (c.first + c.taken) n), { c with taken := c.taken + n })
  else (.error misc, c)

/-- `flat_static_buffer::consume`. -/
def consume (n : ℕ) (c : Cache) : Cache :=
  if c.last - c.first ≤ n then { c with first := 0, last := 0 }
  else { c with first := c.first + n }

/-- `take(MutableBuffer)` into a buffer of size `n`. -/
def takeInto (n : ℕ) (c : Cache) : Bytes × Cache :=
  let copied := min c.size n
  (load c.memory (c.first + c.taken) copied,
    if c.taken = 0 then c.consume copied else { c with taken := c.taken + copied })

/-- `clear`. -/
def clear (c : Cache) : Cache := { c.consume c.taken with taken := 0 }

/-- `rollback`. -/
def rollback (c : Cache) : Cache := { c with taken := 0 }

end Cache

/-! ## The ingress -/

/-- `sha224`, as 56 hexadecimal digits. -/
abbrev Digest := { d : Bytes // d.length = 56 }

/-- `TrojanIngress<NextLayer>`; `fallback` says whether the layer is one of those for which
a failure is answered by the fallback endpoint. -/
structure Ingress where
  underlying : Source UInt8
  passwords : List Bytes
  cache : Cache
  remote : Endpoint
  fallback : Bool

namespace Ingress

/-- The constructor. -/
def make (sha224 : Bytes → Digest) (cred : TrojanIngressCredential) (opt : TrojanOption)
    (fallback : Bool) (memory : Memory) (underlying : Source UInt8) : Ingress where
  underlying := underlying
  passwords := cred.credential.keys.map fun pw => (sha224 pw).1
  cache := Cache.make memory
  remote := opt.remote
  fallback := fallback

/-- `IngressCredentials::authenticate`. -/
def authenticate (s : Ingress) (hash : Bytes) : Bool := s.passwords.contains hash

/-- A coroutine of the ingress: it returns or leaves by a fault, and changes the ingress on
the way. -/
abbrev Coroutine (α : Type) := ExceptT Fault (StateM Ingress) α

def eof : Fault := .thrown (.systemError ⟨.asio .eof, ""⟩)

/-- `assertTrue(bool, PichiError)`. -/
def assertTrue (b : Bool) (e : PichiError) : Coroutine Unit := fun s =>
  ((Checked.assertTrue b e "").lift, s)

/-- The loop of `Cache::read_from`.  A read into an empty window returns at once with
nothing, so that the loop never ends. -/
def readFromLoop (n : ℕ) : ℕ → Ingress → Result Unit × Ingress
  | 0, s => (.error .divergence, s)
  | fuel + 1, s =>
    if n ≤ s.cache.size then (.ok (), s)
    else if s.cache.available.size = 0 then (.error .divergence, s)
    else
      match s.underlying.readSome s.cache.available.size with
      | none => (.error eof, s)
      | some (got, underlying) =>
        readFromLoop n fuel { s with underlying := underlying, cache := s.cache.commit got }

/-- `Cache::read_from`.  Every round of the loop that reads takes at least one byte from the
layer below, which bounds their number. -/
def readFrom (n : ℕ) : Coroutine Unit := fun s =>
  readFromLoop n (s.underlying.all.length + 1) s

/-- `cache_.take(n)`. -/
def take (n : ℕ) : Coroutine Bytes := fun s =>
  let r := s.cache.take n
  (r.1, { s with cache := r.2 })

/-- The callback given to `parse_endpoint`. -/
def demand (n : ℕ) : Coroutine Bytes := do
  readFrom n
  fun s =>
    let r := s.cache.takeInto n
    (.ok r.1, { s with cache := r.2 })

/-- `read_from` for as many bytes as `w` has, and the check that `take` gives `w`. -/
def expect (w : Bytes) : Coroutine Unit := do
  readFrom w.length
  assertTrue ((← take w.length) = w) .badProto

def crlf : Bytes := [13, 10]

/-- The part of `read_remote` up to the command. -/
def readHeader : Coroutine Unit := do
  readFrom 1
  assertTrue (58 ≤ (← get).cache.size) .badProto
  let hash ← take 56
  assertTrue ((← get).authenticate hash) .unauthenticated
  assertTrue ((← take 2) = crlf) .badProto
  expect [1]

/-- The whole request, which is marked as taken but still in the cache. -/
def parseRequest (p : Platform) : Coroutine Endpoint := do
  readHeader
  let remote ← (parse_endpoint p).run fun s n => demand n s
  expect crlf
  return remote

/-- The body of the `try` block of `read_remote`, after the layer below has been accepted. -/
def readRequest (p : Platform) : Coroutine Endpoint := do
  let remote ← parseRequest p
  modify fun s => { s with cache := s.cache.clear }
  return remote

/-- The handler `catch (...)` of `read_remote`. -/
def giveUp (f : Fault) : Coroutine Endpoint := fun s =>
  match f, s.fallback with
  -- what was taken is handed out by `recv` to the fallback
  | .thrown _, true => (.ok s.remote, { s with cache := s.cache.rollback })
  | f, _ => (.error f, s)

/-- `read_remote`; `accepted` is what accepting the layer below answered. -/
def readRemote (p : Platform) (accepted : Result Unit) : Coroutine Endpoint := do
  try
    fun s => (accepted, s)
    readRequest p
  catch f => giveUp f

/-- `recv` into a buffer of size `n`. -/
def recv (n : ℕ) : Coroutine Bytes := fun s =>
  if s.cache.size = 0 then
    match s.underlying.readSome n with
    | none => (.error eof, s)
    | some (got, underlying) => (.ok got, { s with underlying := underlying })
  else
    let r := s.cache.takeInto n
    (.ok r.1, { s with cache := r.2 })

/-- Several calls of `recv` in a row. -/
def recvRun : List ℕ → Ingress → List (Result Bytes) × Ingress
  | [], s => ([], s)
  | n :: ns, s =>
    let r := recv n s
    let rs := recvRun ns r.2
    (r.1 :: rs.1, rs.2)

/-- The bytes a sequence of calls returned. -/
def received (results : List (Result Bytes)) : Bytes :=
  results.flatMap fun
    | .ok got => got
    | .error _ => []

end Ingress

end Trojan

end Pichi
