/-
# The Shadowsocks ingress

`adapter/tcp/shadowsocks.hpp`.  `read_remote` takes the salt off the stream and lets
`parse_endpoint` ask for the parts of the destination, each by a composed read over
`do_read`; `recv` is `do_read` itself.

A client may cut what it sends into frames as it likes, and an empty frame makes `do_read`
succeed with nothing.  The composed read then succeeds with less than it was asked for, and
the decoder goes on with what its array held before.

To the calls above it, a stream is a queue of frames (`Framing`, `doRead_simulates`), so that
the decoder can be run over the queue.

**Main result** (`readRemote_iff`): `read_remote` returns the destination and the later calls
of `recv` yield the payload if and only if no empty frame begins before the end of the
destination.
-/
import Pichi.EndpointCodec
import Pichi.Framed
import Pichi.ShadowsocksStream

namespace Pichi

namespace Shadowsocks

open Transfer (Source Sink readAll pop Solid Simulates)

/-- `read_remote`.  `env` is what the surroundings decide at each call. -/
def readRemote (c : Crypto) (p : Platform) (env : Shadowsocks → ReadEnv) (s : Shadowsocks) :
    Result Endpoint × Shadowsocks :=
  match s.readSalt c (env s) with
  | (.error f, s) => (.error f, s)
  | (.ok (), s) => (parse_endpoint p).run (readAll fun s n => doRead c (env s) n s) s

variable {c : Crypto} {m : CryptoMethod} {key : Bytes} {s : Shadowsocks} {q : List Bytes}

/-! ## A stream is a queue of frames -/

/-- The frames a reader has before it: what is left of one in the cache, and those on the
wire. -/
def Framing (c : Crypto) (m : CryptoMethod) (key : Bytes) (s : Shadowsocks) (q : List Bytes) :
    Prop :=
  s.pw = [] ∧ ∃ nonce rest, s.decryptor.cryptor = ⟨m, some key, nonce⟩
    ∧ s.input.all = wire c m key nonce rest ∧ (∀ x ∈ rest, x.length ≤ frameSize)
    ∧ q = if s.cache = [] then rest else s.cache :: rest

/-- **One call of `do_read`** takes from the queue. -/
theorem doRead_pop (hc : c.Sound) (h : Framing c m key s q) (env : ReadEnv) (n : ℕ) :
    ∃ s', doRead c env n s = ((pop eof q n).1, s') ∧ Framing c m key s' (pop eof q n).2 := by
  obtain ⟨hpw, nonce, rest, hcryptor, hinput, hlen, rfl⟩ := h
  by_cases hcache : s.cache = []
  · rw [if_pos hcache]
    cases rest with
    | nil =>
        obtain ⟨input, hall, hread⟩ := readBlock_of_nil (c := c) [0, 0] hinput
        refine ⟨{ s with input := input }, by simp [doRead, hpw, hcache, hread, pop], hpw, nonce,
          [], hcryptor, hall, by simp, ?_⟩
        simp [pop, hcache]
    | cons x xs =>
        obtain ⟨hx, hxs⟩ := List.forall_mem_cons.mp hlen
        obtain ⟨s₁, hread₁, hpw₁, hcache₁, hx', hnext⟩ := readBlock_frame hc hx hcryptor hinput
        have hblock : (env.block x.length).length = x.length := length_block env _
        by_cases hfits : x.length ≤ n
        · obtain ⟨s₂, hread₂, hpw₂, hcache₂, hcryptor₂, hinput₂⟩ := hnext s₁.cache _ hblock
          have hnil : s₂.cache = [] := by rw [hcache₂, hcache₁, hcache]
          refine ⟨s₂, ?_, hpw₂.trans hpw, _, xs, hcryptor₂, hinput₂, hxs, ?_⟩
          · simp [doRead, hpw, hcache, hread₁, hx', hx, hfits, hread₂, pop]
          · simp [pop, hfits, hnil]
        · obtain ⟨s₂, hread₂, hpw₂, -, hcryptor₂, hinput₂⟩ :=
            hnext (env.block x.length) _ hblock
          have hne : x.drop n ≠ [] := by
            rw [ne_eq, List.drop_eq_nil_iff]
            exact hfits
          refine ⟨{ s₂ with cache := x.drop n }, ?_, hpw₂.trans hpw, _, xs, hcryptor₂, hinput₂,
            hxs, ?_⟩
          · simp [doRead, hpw, hcache, hread₁, hx', hx, hfits, hread₂, pop]
          · simp [pop, hfits]
  · rw [if_neg hcache]
    refine ⟨{ s with cache := s.cache.drop n }, by simp [doRead, hpw, hcache, pop], hpw, nonce,
      rest, hcryptor, hinput, hlen, ?_⟩
    simp [pop]

theorem doRead_simulates (hc : c.Sound) (env : Shadowsocks → ReadEnv) :
    Simulates (Framing c m key) (fun s n => doRead c (env s) n s) (pop eof) := by
  intro s q n h
  obtain ⟨s', hread, hframing⟩ := doRead_pop hc h (env s) n
  exact ⟨_, s', _, hread, rfl, hframing⟩

/-! ## What `recv` yields -/

/-- What a run of reads delivers is the beginning of what the queue holds, and all of it when
there are as many calls as bytes and frames. -/
theorem delivered_of_framing (hc : c.Sound) :
    ∀ (reads : List (ReadEnv × ℕ)) {s : Shadowsocks} {q : List Bytes}, Framing c m key s q →
      (∀ r ∈ reads, 0 < r.2) →
      delivered (readRun c reads s).1 <+: q.flatten
        ∧ (q.length + q.flatten.length ≤ reads.length →
          delivered (readRun c reads s).1 = q.flatten) := by
  intro reads
  induction reads with
  | nil =>
      intro s q _ _
      refine ⟨List.nil_prefix, fun hle => ?_⟩
      have hq : q = [] := List.length_eq_zero_iff.mp (by simp only [List.length_nil] at hle; omega)
      rw [hq]
      rfl
  | cons read reads ih =>
      intro s q h hsizes
      obtain ⟨hsize, hsizes⟩ := List.forall_mem_cons.mp hsizes
      obtain ⟨s', hread, hframing⟩ := doRead_pop hc h read.1 read.2
      rw [delivered_cons, hread]
      obtain ⟨hpre, hall⟩ := ih hframing hsizes
      cases q with
      | nil =>
          -- at the end of the stream every call fails
          simp only [pop, got, List.nil_append] at hpre hall ⊢
          exact ⟨hpre, fun _ => hall (by simp)⟩
      | cons x q =>
          have hflat : (x :: q).flatten = x.take read.2 ++ (pop eof (x :: q) read.2).2.flatten := by
            by_cases hfits : x.length ≤ read.2
            · simp [pop, hfits, List.take_of_length_le]
            · simp [pop, hfits, ← List.append_assoc]
          rw [hflat]
          refine ⟨(List.prefix_append_right_inj _).mpr hpre, fun hle => ?_⟩
          -- a call takes a byte or a frame off the queue
          refine congrArg _ (hall ?_)
          have hlen := congrArg List.length hflat
          rw [List.length_append, List.length_take] at hlen
          rw [← hflat, List.length_cons, List.length_cons] at hle
          by_cases hfits : x.length ≤ read.2
          · have hq : (pop eof (x :: q) read.2).2 = q := by simp [pop, hfits]
            rw [hq] at hlen ⊢
            omega
          · have hq : (pop eof (x :: q) read.2).2.length = q.length + 1 := by simp [pop, hfits]
            omega

/-- From here on the calls of `recv` yield exactly the payload: nothing else, and all of it
when there are enough of them. -/
def Yields (c : Crypto) (s : Shadowsocks) (payload : Bytes) : Prop :=
  ∃ enough, ∀ reads : List (ReadEnv × ℕ), (∀ r ∈ reads, 0 < r.2) →
    delivered (readRun c reads s).1 <+: payload
      ∧ (enough ≤ reads.length → delivered (readRun c reads s).1 = payload)

theorem yields_iff (hc : c.Sound) (h : Framing c m key s q) {payload : Bytes} :
    Yields c s payload ↔ q.flatten = payload := by
  constructor
  · rintro ⟨enough, hyields⟩
    have hsizes : ∀ r ∈ List.replicate (enough + (q.length + q.flatten.length))
        (({}, 1) : ReadEnv × ℕ), 0 < r.2 := by
      intro r hr
      rw [List.eq_of_mem_replicate hr]
      exact Nat.one_pos
    rw [← (hyields _ hsizes).2 (by simp)]
    exact ((delivered_of_framing hc _ h hsizes).2 (by simp)).symm
  · rintro rfl
    exact ⟨_, fun reads hsizes => delivered_of_framing hc reads h hsizes⟩

/-! ## The decoder over a queue of frames -/

section Decoder

variable {p : Platform} {e e' : Endpoint} {capacity : ℕ} {ep payload : Bytes}

/-- A queue that is solid up to the end of the destination supplies it. -/
theorem pop_suppliesSome (payload : Bytes) :
    Transfer.Reader.SuppliesSome (readAll (pop eof)) fun q word =>
      q.flatten = word ++ payload ∧ Solid word.length q := by
  rintro q w t hw ⟨hflat, hsolid⟩
  rw [List.length_append] at hsolid
  have hflat' : q.flatten = w ++ (t ++ payload) := by rw [hflat, List.append_assoc]
  obtain ⟨q', hread, hrest, hsolid'⟩ := Transfer.readAll_pop_of_solid (e := eof)
    (List.length_pos_of_ne_nil hw) hsolid (by rw [hflat', List.length_append]; omega)
  refine ⟨q', ?_, ?_, hsolid'⟩
  · rw [hread, hflat', List.take_left]
  · rw [hrest, hflat', List.drop_left]

/-- The decoder on a queue that is solid up to the end of the destination. -/
theorem parse_of_solid (hp : p.AddressText) (hep : serializeEndpoint p e capacity = .ok ep)
    (hflat : q.flatten = ep ++ payload) (hsolid : Solid ep.length q) :
    ∃ e' q', (parse_endpoint p).run (readAll (pop eof)) q = (.ok e', q')
      ∧ q'.flatten = payload ∧ SameEndpoint p e e' := by
  obtain ⟨e', q', hrun, ⟨hrest, -⟩, hsame⟩ := parse_endpoint_of_serialize hp
    (pop_suppliesSome payload) (t := []) hep (by rw [List.append_nil]; exact ⟨hflat, hsolid⟩)
  exact ⟨e', q', hrun, hrest, hsame⟩

/-- The length of a destination on the wire. -/
theorem length_of_serializeEndpoint (hep : serializeEndpoint p e capacity = .ok ep) :
    ep.length = match e.type with
      | .domainName => 4 + e.host.length
      | .ipv4 => 7
      | .ipv6 => 19 := by
  obtain ⟨type, host, port⟩ := e
  rw [serializeEndpoint_eq_ok_iff] at hep
  obtain ⟨-, hep⟩ := hep
  cases type with
  | domainName =>
      obtain ⟨-, -, rfl⟩ := hep
      simp only [List.length_cons, List.length_append, length_hton]
      omega
  | ipv4 =>
      obtain ⟨-, a, -, rfl⟩ := hep
      simp [a.2]
  | ipv6 =>
      obtain ⟨-, a, -, rfl⟩ := hep
      simp [a.2]

theorem length_readBuffer : readBuffer.length = 512 := List.length_replicate

theorem length_le_overwrite (buf w : Bytes) : buf.length ≤ (overwrite buf w).length := by
  rw [overwrite, List.length_append, List.length_drop]
  omega

/-- One request of the decoder that the queue answered, in full or not. -/
theorem exists_of_run_read_pop {α : Type} {n : ℕ} {k : Bytes → Transfer.Reader UInt8 Fault α}
    {q q' : List Bytes} {v : α}
    (h : (Transfer.Reader.read n k).run (readAll (pop eof)) q = (.ok v, q')) :
    ∃ w q₁, (k w).run (readAll (pop eof)) q₁ = (.ok v, q') ∧ q.flatten = w ++ q₁.flatten
      ∧ w.length ≤ n ∧ (w.length = n → 0 < n → ∀ j, Solid j q₁ → Solid (n + j) q) := by
  obtain ⟨w, q₁, hread, hrun⟩ := Transfer.Reader.exists_of_run_read_eq_ok h
  obtain ⟨hflat, hlen, hsolid⟩ := Transfer.of_readAll_pop hread
  exact ⟨w, q₁, hrun, hflat, hlen, hsolid⟩

/-- **A decoder that returns the destination and leaves the payload** has found the queue solid
up to the end of the destination: an answer that is short anywhere leaves bytes of the
destination in front of the payload. -/
theorem solid_of_parse {q' : List Bytes} (hep : serializeEndpoint p e capacity = .ok ep)
    (hflat : q.flatten = ep ++ payload)
    (hrun : (parse_endpoint p).run (readAll (pop eof)) q = (.ok e', q'))
    (hrest : q'.flatten = payload) (hsame : SameEndpoint p e e') : Solid ep.length q := by
  have hlen := length_of_serializeEndpoint hep
  obtain ⟨htype, -, hhost⟩ := hsame
  rw [parse_endpoint] at hrun
  obtain ⟨w₁, q₁, hrun, hflat₁, hlen₁, hsolid₁⟩ := exists_of_run_read_pop hrun
  have hused : ep.length + payload.length = w₁.length + q₁.flatten.length := by
    rw [← List.length_append, ← List.length_append, ← hflat, hflat₁]
  by_cases htag4 : (overwrite readBuffer w₁).headD 0 = 0x01
  · simp only [htag4, if_true] at hrun
    obtain ⟨w₂, q₂, hrun, hflat₂, hlen₂, hsolid₂⟩ := exists_of_run_read_pop hrun
    cases hrun
    rw [← htype] at hlen
    simp only at hlen
    rw [hflat₂, hrest, List.length_append] at hused
    rw [hlen]
    exact hsolid₁ (by omega) (by omega) _ (hsolid₂ (by omega) (by omega) 0 (Transfer.solid_zero _))
  simp only [htag4, if_false] at hrun
  by_cases htag3 : (overwrite readBuffer w₁).headD 0 = 0x03
  · simp only [htag3, if_true] at hrun
    obtain ⟨w₂, q₂, hrun, hflat₂, hlen₂, hsolid₂⟩ := exists_of_run_read_pop hrun
    split at hrun
    · obtain ⟨w₃, q₃, hrun, hflat₃, hlen₃, hsolid₃⟩ := exists_of_run_read_pop hrun
      generalize hn : ((overwrite (overwrite readBuffer w₁) w₂).headD 0).toNat = n at *
      cases hrun
      rw [← htype] at hlen hhost
      simp only at hlen hhost
      -- the name the decoder returns is as long as the length it has read
      have hlt : n < 256 := by
        rw [← hn]
        exact UInt8.toNat_lt _
      have hbuf : 512 ≤ (overwrite (overwrite (overwrite readBuffer w₁) w₂) w₃).length :=
        ((length_readBuffer.ge.trans (length_le_overwrite _ _)).trans
          (length_le_overwrite _ _)).trans (length_le_overwrite _ _)
      have hname := congrArg List.length hhost
      rw [List.length_take] at hname
      rw [hflat₂, hflat₃, hrest, List.length_append, List.length_append] at hused
      have hsolid := hsolid₁ (by omega) (by omega) _
        (hsolid₂ (by omega) (by omega) _ (hsolid₃ (by omega) (by omega) 0 (Transfer.solid_zero _)))
      have htotal : ep.length = 1 + (1 + (n + 2 + 0)) := by omega
      rw [htotal]
      exact hsolid
    · cases hrun
  simp only [htag3, if_false] at hrun
  by_cases htag6 : (overwrite readBuffer w₁).headD 0 = 0x04
  · simp only [htag6, if_true] at hrun
    obtain ⟨w₂, q₂, hrun, hflat₂, hlen₂, hsolid₂⟩ := exists_of_run_read_pop hrun
    cases hrun
    rw [← htype] at hlen
    simp only at hlen
    rw [hflat₂, hrest, List.length_append] at hused
    rw [hlen]
    exact hsolid₁ (by omega) (by omega) _ (hsolid₂ (by omega) (by omega) 0 (Transfer.solid_zero _))
  · simp only [htag6, if_false] at hrun
    cases hrun

end Decoder

/-! ## Destinations in frames -/

section ReadRemote

variable {p : Platform} {pw salt own : Bytes} {sentry : Bool} {src : Source UInt8}
  {output : Sink UInt8} {frames : List Bytes} {env : Shadowsocks → ReadEnv}

/-- `read_remote` gets the salt, and runs the decoder over the frames behind it. -/
theorem readRemote_eq (p : Platform) (own : Bytes) (sentry : Bool) (output : Sink UInt8)
    (hc : c.Sound) (hsalt : salt.length = m.keySize)
    (hframes : ∀ x ∈ frames, x.length ≤ frameSize)
    (hsrc : src.all = salt ++ wire c m (Cryptor.deriveKey c pw salt)
      (List.replicate m.nonceSize 0) frames)
    (henv : ∀ s, (env s).replayed = false) :
    ∃ r s' q, readRemote c p env (make c m pw own sentry src output) = (r, s')
      ∧ (parse_endpoint p).run (readAll (pop eof)) frames = (r, q)
      ∧ Framing c m (Cryptor.deriveKey c pw salt) s' q := by
  have hlen : (make c m pw own sentry src output).decryptor.salt.length = salt.length := by
    simp [make, Decryptor.make, hsalt]
  obtain ⟨hread, hrest⟩ := Source.read_append hsrc
  have hpair : (make c m pw own sentry src output).input.read
      (make c m pw own sentry src output).decryptor.salt.length
      = (some salt, (src.read salt.length).2) := by
    rw [hlen]
    exact Prod.ext hread rfl
  have hframing : Framing c m (Cryptor.deriveKey c pw salt)
      { make c m pw own sentry src output with
        input := (src.read salt.length).2
        decryptor := (Decryptor.mk (Cryptor.make m) salt).setPsk c pw
        pw := [] } frames :=
    ⟨rfl, _, frames, rfl, hrest, hframes, rfl⟩
  obtain ⟨r, s', q, hrun, hrun', hframing'⟩ :=
    ((doRead_simulates hc env).readAll).run (parse_endpoint p) _ _ hframing
  refine ⟨r, s', q, ?_, hrun', hframing'⟩
  rw [readRemote, readSalt, hpair]
  simp only [henv, Bool.and_false]
  exact hrun

/-- **The destination in frames.**  However a client that holds the key cuts the destination
and the payload into frames, and however these are segmented on the socket: `read_remote`
returns the destination and the calls of `recv` after it yield exactly the payload, if and
only if no empty frame begins before the end of the destination. -/
theorem readRemote_iff (hc : c.Sound) (hp : p.AddressText) (hsalt : salt.length = m.keySize)
    {e : Endpoint} {capacity : ℕ} {ep payload : Bytes}
    (hep : serializeEndpoint p e capacity = .ok ep)
    (hframes : ∀ x ∈ frames, x.length ≤ frameSize) (hflat : frames.flatten = ep ++ payload)
    (hsrc : src.all = salt ++ wire c m (Cryptor.deriveKey c pw salt)
      (List.replicate m.nonceSize 0) frames)
    (henv : ∀ s, (env s).replayed = false) :
    (∃ e' s', readRemote c p env (make c m pw own sentry src output) = (.ok e', s')
        ∧ SameEndpoint p e e' ∧ Yields c s' payload)
      ↔ ∀ before x after, frames = before ++ x :: after →
          before.flatten.length < ep.length → x ≠ [] := by
  obtain ⟨r, s', q, hremote, hrun, hframing⟩ := readRemote_eq p own sentry output hc
    hsalt hframes hsrc henv
  rw [hremote]
  constructor
  · rintro ⟨e', s'', heq, hsame, hyields⟩
    cases heq
    exact solid_of_parse hep hflat hrun ((yields_iff hc hframing).mp hyields) hsame
  · intro hsolid
    obtain ⟨e', q', hrun', hrest, hsame⟩ := parse_of_solid hp hep hflat hsolid
    rw [hrun'] at hrun
    cases hrun
    exact ⟨e', s', rfl, hsame, (yields_iff hc hframing).mpr hrest⟩

end ReadRemote

/-- What a client sends: the salt, and the given frames under the key it gives. -/
def clientBytes (frames : List Bytes) : Bytes :=
  List.replicate 16 7 ++ wire Reference.crypto .aes128Gcm
    (Cryptor.deriveKey Reference.crypto (lit "pw") (List.replicate 16 7)) (List.replicate 12 0)
    frames

theorem clientBytes_ne_nil (frames : List Bytes) : clientBytes frames ≠ [] := by
  simp [clientBytes]

/-- An ingress in front of that, in one piece. -/
def ingressOf (frames : List Bytes) : Shadowsocks :=
  make Reference.crypto .aes128Gcm (lit "pw") [] true
    ⟨[clientBytes frames], by simp [clientBytes_ne_nil]⟩ Sink.healthy

theorem salt_length : (List.replicate 16 (7 : UInt8)).length = CryptoMethod.aes128Gcm.keySize := rfl

theorem all_ingressOf (frames : List Bytes) : (ingressOf frames).input.all
    = List.replicate 16 7 ++ wire Reference.crypto .aes128Gcm
      (Cryptor.deriveKey Reference.crypto (lit "pw") (List.replicate 16 7))
      (List.replicate CryptoMethod.aes128Gcm.nonceSize 0) frames :=
  List.flatten_singleton

/-- `example:443` cut within the name, and an empty frame in the payload. -/
theorem readRemote_iff_example :
    ∃ e' s', readRemote Reference.crypto Reference.platform (fun _ => {})
        (ingressOf [3 :: 7 :: lit "exam", lit "ple" ++ [1, 187] ++ lit "he", [], lit "llo"])
          = (.ok e', s')
      ∧ SameEndpoint Reference.platform ⟨.domainName, lit "example", 443⟩ e'
      ∧ Yields Reference.crypto s' (lit "hello") := by
  have hep : serializeEndpoint Reference.platform ⟨.domainName, lit "example", 443⟩ 512
      = .ok (3 :: 7 :: lit "example" ++ [1, 187]) := by decide
  refine (readRemote_iff Reference.crypto_sound Reference.platform_addressText salt_length hep
    (by decide) (by decide) (all_ingressOf _) (fun _ => rfl)).mpr ?_
  exact Transfer.solid_cons.mpr ⟨fun _ => by decide, Transfer.solid_cons.mpr
    ⟨fun _ => by decide, Transfer.solid_zero _⟩⟩

/-- The same destination behind an empty frame: the length of the name is not read, the tag
is taken for it, and the ingress goes to a host the client has never named. -/
theorem readRemote_counterexample :
    serializeEndpoint Reference.platform ⟨.domainName, lit "example", 443⟩ 512
        = .ok ([3] ++ [] ++ (7 :: lit "example" ++ [1, 187]))
      ∧ (readRemote Reference.crypto Reference.platform (fun _ => {})
        (ingressOf [[3], [], 7 :: lit "example" ++ [1, 187]])).1
          = .ok ⟨.domainName, 7 :: lit "ex", 24941⟩
      ∧ ¬SameEndpoint Reference.platform ⟨.domainName, lit "example", 443⟩
        ⟨.domainName, 7 :: lit "ex", 24941⟩ := by
  refine ⟨by decide, ?_, fun hsame => absurd hsame.2.1 (by decide)⟩
  have henv : ∀ s, ((fun _ => {} : Shadowsocks → ReadEnv) s).replayed = false := fun _ => rfl
  obtain ⟨r, s', q, hremote, hrun, -⟩ := readRemote_eq Reference.platform [] true Sink.healthy
    Reference.crypto_sound salt_length (by decide)
    (all_ingressOf [[3], [], 7 :: lit "example" ++ [1, 187]]) henv
  have htag : readAll (pop eof) [[3], [], 7 :: lit "example" ++ [1, 187]] 1
      = (.ok [3], [[], 7 :: lit "example" ++ [1, 187]]) :=
    Transfer.readAll_of_end rfl (Or.inr (by decide))
  have hlength : readAll (pop eof) [[], 7 :: lit "example" ++ [1, 187]] 1
      = (.ok [], [7 :: lit "example" ++ [1, 187]]) :=
    Transfer.readAll_of_end rfl (Or.inl rfl)
  have hname : readAll (pop eof) [7 :: lit "example" ++ [1, 187]] 5
      = (.ok (7 :: lit "exam"), [lit "ple" ++ [1, 187]]) :=
    Transfer.readAll_of_end rfl (Or.inr (by decide))
  have hparse : (parse_endpoint Reference.platform).run (readAll (pop eof))
      [[3], [], 7 :: lit "example" ++ [1, 187]]
        = (.ok ⟨.domainName, 7 :: lit "ex", 24941⟩, [lit "ple" ++ [1, 187]]) := by
    rw [parse_endpoint, Transfer.Reader.run_read_of_ok htag]
    refine (Transfer.Reader.run_read_of_ok hlength).trans ?_
    refine (Transfer.Reader.run_read_of_ok hname).trans ?_
    rfl
  rw [hparse] at hrun
  cases hrun
  exact congrArg Prod.fst hremote

end Shadowsocks

end Pichi
