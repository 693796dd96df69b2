/-
# Building adapters from their configuration

`create_ingress` and `create_egress` of `adapter/tcp/adapter.cpp`, the constructors they
call, `DualIngress`'s choice of its delegate, `calc_delay` of `adapter/tcp/reject.cpp`,
`tls_context` of `stream/tls.cpp`, and `Balancer::initialize` of `service/balancer.cpp`.
They all read a configuration value that was parsed long before, through `*o`, `o->`,
`std::get` and switches over its enumerators.

The four things that must not happen to such a value are kept apart from what fails outside
the program (a certificate that cannot be loaded, say) by `BuildFault`.

**Main result** (`adapters_of_parse`): what `parse` accepts can be built.
-/
import Pichi.Balancer
import Pichi.Http
import Pichi.Socks5
import Pichi.Trojan

namespace Pichi

/-! ## Faults of a constructor -/

/-- What a constructor can do wrong with a configuration value. -/
inductive Misuse : Type where
  /-- `*o` or `o->` of an empty `std::optional`. -/
  | emptyOptional
  /-- `std::get` of an alternative that is not the active one. -/
  | wrongAlternative
  /-- `fail()` in the default branch of a switch. -/
  | defaultBranch
  /-- An assertion on the value. -/
  | assertion
  deriving DecidableEq, Repr

/-- How a constructor can leave. -/
inductive BuildFault : Type where
  | misuse (m : Misuse)
  | outside (f : Fault)

/-- A constructor. -/
abbrev Build (α : Type) := Except BuildFault α

namespace Build

variable {α β : Type}

/-- `*o`. -/
def deref : Option α → Build α
  | some a => .ok a
  | none => .error (.misuse .emptyOptional)

/-- A call of code that knows the faults of the language. -/
def call : Result α → Build α
  | .ok a => .ok a
  | .error (.thrown .badVariantAccess) => .error (.misuse .wrongAlternative)
  | .error f => .error (.outside f)

/-- A call of code outside the program. -/
def outside : Result α → Build α
  | .ok a => .ok a
  | .error f => .error (.outside f)

/-- `assertTrue`. -/
def assertTrue (b : Bool) : Build Unit := if b then .ok () else .error (.misuse .assertion)

/-- `fail()` in a default branch. -/
def fail : Build α := .error (.misuse .defaultBranch)

end Build

/-! ## TLS contexts (`stream/tls.cpp`) -/

/-- How a client checks the certificate of the server. -/
inductive Verification : Type where
  | verifyNone
  | verifyFile (path : Bytes)
  | hostName (name : Bytes)

/-- What the constructors take from outside: OpenSSL's contexts, a fresh socket, and the
draw of a uniform distribution. -/
structure Library (Context Socket : Type) where
  /-- A `tls_server` context, with its certificate chain and private key. -/
  serverContext : Bytes → Bytes → Result Context
  /-- A `tls_client` context. -/
  clientContext : Verification → Result Context
  /-- `SSL_set_tlsext_host_name`, on the stream of a context. -/
  setHostName : Context → Bytes → Bool
  /-- `Socket{ex}`. -/
  socket : Socket
  /-- `uniform_int_distribution<>{0, 300}` at its generator. -/
  draw : Fin 301

/-- The stack of streams below an adapter: the socket, `stream::Tls`, `stream::Websocket`. -/
inductive Layer (Context Socket : Type) : Type where
  | socket (s : Socket)
  | tls (ctx : Context) (s : Socket)
  | websocket (path host : Bytes) (ctx : Context) (s : Socket)

section Construction

variable {Context Socket : Type} (p : Platform) (lib : Library Context Socket)
  (sha224 : Bytes → Trojan.Digest)

/-- `tls_context(TlsIngressOption)`. -/
def tlsServer (opt : TlsIngressOption) : Build Context :=
  Build.outside (lib.serverContext opt.certFile opt.keyFile)

/-- `tls_context(TlsEgressOption, std::string)`. -/
def tlsClient (opt : TlsEgressOption) (sn : Bytes) : Build Context :=
  if opt.insecure then Build.outside (lib.clientContext .verifyNone)
  else if opt.caFile.isSome then do
    Build.outside (lib.clientContext (.verifyFile (← Build.deref opt.caFile)))
  else Build.outside (lib.clientContext (.hostName (opt.serverName.getD sn)))

/-- The part of a constructor of `Tls` that takes a server name. -/
def applySni (sni : Option Bytes) (ctx : Context) : Build Unit :=
  match sni with
  | some name =>
    -- it fails by `assertTrue`, for what OpenSSL answers
    Build.outside (Checked.assertTrue (lib.setHostName ctx name) .misc "").lift
  | none => .ok ()

/-! ## Ingresses -/

/-- `adapter::tcp::Ingress`: which adapter, and what its constructor has stored. -/
inductive TcpIngress (Context Socket : Type) : Type where
  | shadowsocks (method : CryptoMethod) (pw : Bytes) (s : Socket)
  | socks5 (credential : ValueMap Bytes) (underlying : Layer Context Socket)
  | http (credentials : List Bytes) (underlying : Layer Context Socket)
  | dual (vo : Ingress) (underlying : Layer Context Socket)
  | trojan (passwords : List Bytes) (remote : Endpoint) (underlying : Layer Context Socket)
  | transparent (s : Socket)
  | tunnel (name : Bytes) (s : Socket)

/-- The user names and passwords of an ingress, if it has any. -/
def upCredential (vo : Ingress) : Build (Option UpIngressCredential) :=
  if vo.credential.isSome then do
    return some (← Build.call (← Build.deref vo.credential).getUp)
  else .ok none

/-- The constructor of `Shadowsocks`, with `create_stream`. -/
def shadowsocksIngress (vo : Ingress) (s : Socket) : Build (TcpIngress Context Socket) := do
  Build.assertTrue vo.opt.isSome
  let opt ← Build.call (← Build.deref vo.opt).getSs
  return .shadowsocks opt.method opt.password s

/-- The constructor of `Socks5Ingress`. -/
def socks5Ingress (vo : Ingress) (underlying : Layer Context Socket) :
    Build (TcpIngress Context Socket) := do
  let credential ← upCredential vo
  return .socks5 ((credential.map (·.credential)).getD ∅) underlying

/-- The constructor of `HttpIngress`. -/
def httpIngress (vo : Ingress) (underlying : Layer Context Socket) :
    Build (TcpIngress Context Socket) := do
  return .http (Http.genCredentials p (← upCredential vo)) underlying

/-- The constructor of `TrojanIngress`. -/
def trojanIngress (vo : Ingress) (underlying : Layer Context Socket) :
    Build (TcpIngress Context Socket) := do
  let cred ← Build.call (← Build.deref vo.credential).getTrojan
  let opt ← Build.call (← Build.deref vo.opt).getTrojan
  return .trojan (cred.credential.keys.map fun pw => (sha224 pw).1) opt.remote underlying

/-- The layer of the adapters for which TLS is optional. -/
def ingressLayer (vo : Ingress) (s : Socket) : Build (Layer Context Socket) :=
  if vo.tls.isSome then do return .tls (← tlsServer lib (← Build.deref vo.tls)) s
  else .ok (.socket s)

/-- The layer of `TrojanIngress`. -/
def trojanIngressLayer (vo : Ingress) (s : Socket) : Build (Layer Context Socket) :=
  if vo.websocket.isSome then do
    let websocket ← Build.deref vo.websocket
    let ctx ← tlsServer lib (← Build.deref vo.tls)
    return .websocket websocket.path (websocket.host.getD []) ctx s
  else do return .tls (← tlsServer lib (← Build.deref vo.tls)) s

/-- `create_ingress`. -/
def createIngress (vo : Ingress) (s : Socket) : Build (TcpIngress Context Socket) :=
  match vo.type with
  | .ss => shadowsocksIngress vo s
  | .socks5 => do socks5Ingress vo (← ingressLayer lib vo s)
  | .http => do httpIngress p vo (← ingressLayer lib vo s)
  | .dual => do return .dual vo (← ingressLayer lib vo s)
  | .trojan => do trojanIngress sha224 vo (← trojanIngressLayer lib vo s)
  | .transp => return .transparent s
  | .tunnel => return .tunnel vo.name s
  | .direct | .reject => Build.fail

/-- The delegate that `DualIngress::read_remote` builds after the first byte. -/
def dualDelegate (vo : Ingress) (first : UInt8) (underlying : Layer Context Socket) :
    Build (TcpIngress Context Socket) :=
  if first = 0x05 then socks5Ingress vo underlying else httpIngress p vo underlying

/-! ## Egresses -/

/-- `adapter::tcp::Egress`: which adapter, and what its constructor has stored. -/
inductive TcpEgress (Context Socket : Type) : Type where
  | shadowsocks (method : CryptoMethod) (pw : Bytes) (proxy : Endpoint)
  | direct (s : Socket)
  | reject (delay : ℕ)
  | socks5 (peer : Endpoint) (data : Bytes) (underlying : Layer Context Socket)
  | http (peer : Endpoint) (credential : Bytes) (underlying : Layer Context Socket)
  | trojan (cred : Bytes) (peer : Endpoint) (underlying : Layer Context Socket)

/-- `calc_delay`, in seconds. -/
def calcDelay (opt : RejectOption) : Build ℕ :=
  match opt.mode with
  | .random => .ok lib.draw
  | .fixed => do return (← Build.deref opt.delay).toNat

/-- The constructor of `Shadowsocks`, with `create_stream`. -/
def shadowsocksEgress (vo : Egress) : Build (TcpEgress Context Socket) := do
  Build.assertTrue vo.opt.isSome
  let opt ← Build.call (← Build.deref vo.opt).getSs
  return .shadowsocks opt.method opt.password (← Build.deref vo.server)

/-- The constructor of `RejectEgress`. -/
def rejectEgress (vo : Egress) : Build (TcpEgress Context Socket) := do
  let opt ← Build.call (← Build.deref vo.opt).getReject
  return .reject (← calcDelay lib opt)

/-- The constructor of `Socks5Egress`. -/
def socks5Egress (vo : Egress) (underlying : Layer Context Socket) :
    Build (TcpEgress Context Socket) := do
  let peer ← Build.deref vo.server
  return .socks5 peer (← Build.call (Socks5.genData vo)) underlying

/-- The constructor of `HttpEgress`. -/
def httpEgress (vo : Egress) (underlying : Layer Context Socket) :
    Build (TcpEgress Context Socket) := do
  let peer ← Build.deref vo.server
  if vo.credential.isSome then do
    let cred ← Build.call (← Build.deref vo.credential).getUp
    return .http peer (Http.genCredential p (some cred)) underlying
  else return .http peer (Http.genCredential p none) underlying

/-- The constructor of `TrojanEgress`. -/
def trojanEgress (vo : Egress) (underlying : Layer Context Socket) :
    Build (TcpEgress Context Socket) := do
  let cred ← Build.call (← Build.deref vo.credential).getTrojan
  return .trojan (sha224 cred.credential).1 (← Build.deref vo.server) underlying

/-- The layer of the adapters for which TLS is optional. -/
def egressLayer (vo : Egress) : Build (Layer Context Socket) :=
  if vo.tls.isSome then do
    let tls ← Build.deref vo.tls
    let server ← Build.deref vo.server
    return .tls (← tlsClient lib tls server.host) lib.socket
  else .ok (.socket lib.socket)

/-- The layer of `TrojanEgress`. -/
def trojanEgressLayer (vo : Egress) : Build (Layer Context Socket) :=
  if vo.websocket.isSome then do
    let websocket ← Build.deref vo.websocket
    let tls ← Build.deref vo.tls
    let server ← Build.deref vo.server
    let ctx ← tlsClient lib tls server.host
    applySni lib tls.sni ctx
    return .websocket websocket.path (websocket.host.getD []) ctx lib.socket
  else do
    let tls ← Build.deref vo.tls
    let server ← Build.deref vo.server
    let ctx ← tlsClient lib tls server.host
    applySni lib tls.sni ctx
    return .tls ctx lib.socket

/-- `create_egress`. -/
def createEgress (vo : Egress) : Build (TcpEgress Context Socket) :=
  match vo.type with
  | .ss => shadowsocksEgress vo
  | .direct => return .direct lib.socket
  | .reject => rejectEgress lib vo
  | .socks5 => do socks5Egress vo (← egressLayer lib vo)
  | .http => do httpEgress p vo (← egressLayer lib vo)
  | .trojan => do trojanEgress sha224 vo (← trojanEgressLayer lib vo)
  | .tunnel | .transp | .dual => Build.fail

end Construction

/-! ## Balancers -/

/-- `Balancer::Manner`. -/
inductive Balancer : Type where
  /-- `balancer::Random`; `upper` is the upper bound of its distribution. -/
  | random (peers : List Endpoint) (upper : ℕ)
  | roundRobin (peers : List Endpoint) (pos : ℕ)
  | leastConn (s : LeastConn)

/-- The destinations a balancer chooses from. -/
def Balancer.peers : Balancer → List Endpoint
  | random peers _ => peers
  | roundRobin peers _ => peers
  | leastConn s => s.peers

/-- `Balancer::initialize`. -/
def Balancer.initializeManner (vo : Ingress) : Build Balancer := do
  Build.assertTrue (vo.type = .tunnel)
  let opt ← Build.call (← Build.deref vo.opt).getTunnel
  Build.assertTrue (!opt.destinations.isEmpty)
  match opt.balance with
  | .random =>
    -- the size of the list less one, as a `size_t`
    return .random opt.destinations ((opt.destinations.length + (2 ^ 64 - 1)) % 2 ^ 64)
  | .roundRobin => return .roundRobin opt.destinations 0
  | .leastConn => return .leastConn (LeastConn.make opt)

/-! ## Constructors that fail for outside reasons only -/

/-- A construction that does nothing wrong with the value it reads. -/
def Sound {α : Type} (x : Build α) : Prop := ∀ m, x ≠ .error (.misuse m)

namespace Sound

variable {α β : Type}

theorem ok (a : α) : Sound (.ok a : Build α) := by
  intro m h
  cases h

theorem bind {x : Build α} {k : α → Build β} (hx : Sound x) (hk : ∀ a, x = .ok a → Sound (k a)) :
    Sound (x >>= k) := by
  cases x with
  | ok a => exact hk a rfl
  | error f =>
      intro m h
      have hfm : f = .misuse m := Except.error.inj h
      exact hx m (by rw [hfm])

theorem outside (x : Result α) : Sound (Build.outside x) := by
  intro m h
  cases x <;> cases h

theorem call {x : Result α} (hx : x ≠ badVariant) : Sound (Build.call x) := by
  intro m h
  unfold Build.call at h
  split at h
  · cases h
  · exact hx rfl
  · cases h

theorem deref_some {o : Option α} {a : α} (h : o = some a) : Sound (Build.deref o) := by
  rw [h]
  exact ok a

end Sound

/-! ## What parsing leaves for the constructors -/

/-- The parts that building an ingress reads are there, in the alternative of its type. -/
def Ingress.Ready (vo : Ingress) : Prop :=
  match vo.type with
  | .tunnel => ∃ o, vo.opt = some (.tunnel o) ∧ o.destinations ≠ []
  | .http | .socks5 | .dual => ∀ c, vo.credential = some c → ∃ u, c = .up u
  | .ss => ∃ o, vo.opt = some (.ss o)
  | .trojan =>
      (∃ c, vo.credential = some (.trojan c)) ∧ (∃ o, vo.opt = some (.trojan o))
        ∧ ∃ t, vo.tls = some t
  | .transp => True
  | .direct | .reject => False

/-- The name of an ingress is not one of these parts. -/
theorem Ingress.Ready.named {vo : Ingress} (h : vo.Ready) (name : Bytes) :
    Ingress.Ready { vo with name := name } := h

/-- The parts that building an egress reads are there, in the alternative of its type. -/
def Egress.Ready (vo : Egress) : Prop :=
  match vo.type with
  | .direct => True
  | .reject => ∃ o, vo.opt = some (.reject o) ∧ (o.mode = .fixed → ∃ d, o.delay = some d)
  | .http | .socks5 =>
      (∃ e, vo.server = some e) ∧ ∀ c, vo.credential = some c → ∃ u, c = .up u
  | .ss => (∃ e, vo.server = some e) ∧ ∃ o, vo.opt = some (.ss o)
  | .trojan =>
      (∃ e, vo.server = some e) ∧ (∃ c, vo.credential = some (.trojan c)) ∧ ∃ t, vo.tls = some t
  | .tunnel | .transp | .dual => False

/-- A fixed delay is there, also when the configuration leaves it out. -/
theorem RejectOption.delay_of_parse {v : Json} {opt : RejectOption}
    (h : RejectOption.parse v = .ok opt) (hmode : opt.mode = .fixed) :
    ∃ d, opt.delay = some d := by
  simp only [RejectOption.parse, bind_eq_ok_iff] at h
  obtain ⟨_, -, _, -, mode, -, h⟩ := h
  cases mode with
  | random =>
      cases h
      cases hmode
  | fixed =>
      simp only [bind_eq_ok_iff, pure, Except.pure, Except.ok.injEq] at h
      obtain ⟨o, -, _, -, rfl⟩ := h
      exact ⟨_, rfl⟩

theorem Ingress.parseParts_ready {p : Platform} {v : Json} {vo parsed : Ingress}
    (h : parseParts p v vo = .ok parsed) : parsed.Ready := by
  unfold parseParts at h
  cases htype : vo.type <;> simp only [htype, bind_eq_ok_iff, pure, Except.pure,
    Except.ok.injEq] at h
  case tunnel =>
    obtain ⟨_, -, opt, hopt, rfl⟩ := h
    simp only [Ready]
    exact ⟨opt, rfl, TunnelOption.destinations_ne_nil hopt⟩
  case ss =>
    obtain ⟨_, -, _, -, rfl⟩ := h
    simp [Ready]
  case trojan =>
    obtain ⟨_, -, _, -, _, -, _, -, _, -, _, -, _, -, rfl⟩ := h
    simp [Ready]
  case transp =>
    subst h
    simp [Ready, htype]
  case direct => cases h
  case reject => cases h
  all_goals
    obtain ⟨_, -, c, -, rfl⟩ := h
    simp only [Ready]
    exact fun _ hc => exists_up_of_map hc

theorem Ingress.ready_of_parse {p : Platform} {v : Json} {vo : Ingress}
    (h : Ingress.parse p v = .ok vo) : vo.Ready := by
  simp only [Ingress.parse, bind_eq_ok_iff] at h
  obtain ⟨_, -, _, -, _, -, _, -, _, -, _, -, _, -, _, -, _, -, h⟩ := h
  exact parseParts_ready h

theorem Egress.parseParts_ready {p : Platform} {v : Json} {vo parsed : Egress}
    (h : parseParts p v vo = .ok parsed) : parsed.Ready := by
  unfold parseParts at h
  cases htype : vo.type <;> simp only [htype, bind_eq_ok_iff, pure, Except.pure,
    Except.ok.injEq] at h
  case direct =>
    subst h
    simp [Ready, htype]
  case reject =>
    obtain ⟨_, -, opt, hopt, rfl⟩ := h
    simp only [Ready]
    exact ⟨opt, rfl, RejectOption.delay_of_parse hopt⟩
  case ss =>
    obtain ⟨_, -, _, -, _, -, _, -, rfl⟩ := h
    simp [Ready]
  case trojan =>
    obtain ⟨_, -, _, -, _, -, _, -, _, -, _, -, _, -, rfl⟩ := h
    simp [Ready]
  case tunnel => cases h
  case transp => cases h
  case dual => cases h
  all_goals
    obtain ⟨_, -, server, -, c, -, _, -, rfl⟩ := h
    simp only [Ready]
    exact ⟨⟨server, rfl⟩, fun _ hc => exists_up_of_map hc⟩

theorem Egress.ready_of_parse {p : Platform} {v : Json} {vo : Egress}
    (h : Egress.parse p v = .ok vo) : vo.Ready := by
  simp only [Egress.parse, bind_eq_ok_iff] at h
  obtain ⟨_, -, _, -, _, -, h⟩ := h
  exact parseParts_ready h

/-! ## The constructors -/

section Construction

variable {Context Socket : Type} (p : Platform) (lib : Library Context Socket)
  (sha224 : Bytes → Trojan.Digest)

theorem sound_upCredential {vo : Ingress} (h : ∀ c, vo.credential = some c → ∃ u, c = .up u) :
    Sound (upCredential vo) := by
  unfold upCredential
  split
  · rename_i hsome
    obtain ⟨c, hc⟩ := Option.isSome_iff_exists.mp hsome
    obtain ⟨u, rfl⟩ := h c hc
    rw [hc]
    exact .ok _
  · exact .ok _

theorem sound_ingressLayer (vo : Ingress) (s : Socket) : Sound (ingressLayer lib vo s) := by
  unfold ingressLayer
  split
  · rename_i hsome
    obtain ⟨t, ht⟩ := Option.isSome_iff_exists.mp hsome
    exact .bind (.deref_some ht) fun _ _ => .bind (.outside _) fun _ _ => .ok _
  · exact .ok _

theorem sound_trojanIngressLayer {vo : Ingress} (h : ∃ t, vo.tls = some t) (s : Socket) :
    Sound (trojanIngressLayer lib vo s) := by
  obtain ⟨t, ht⟩ := h
  unfold trojanIngressLayer
  split
  · rename_i hsome
    obtain ⟨w, hw⟩ := Option.isSome_iff_exists.mp hsome
    exact .bind (.deref_some hw) fun _ _ => .bind (.deref_some ht) fun _ _ =>
      .bind (.outside _) fun _ _ => .ok _
  · exact .bind (.deref_some ht) fun _ _ => .bind (.outside _) fun _ _ => .ok _

theorem sound_socks5Ingress {vo : Ingress} (underlying : Layer Context Socket)
    (h : ∀ c, vo.credential = some c → ∃ u, c = .up u) : Sound (socks5Ingress vo underlying) :=
  .bind (sound_upCredential h) fun _ _ => .ok _

theorem sound_httpIngress {vo : Ingress} (underlying : Layer Context Socket)
    (h : ∀ c, vo.credential = some c → ∃ u, c = .up u) : Sound (httpIngress p vo underlying) :=
  .bind (sound_upCredential h) fun _ _ => .ok _

/-- Building a ready ingress fails for outside reasons only. -/
theorem sound_createIngress {vo : Ingress} (h : vo.Ready) (s : Socket) :
    Sound (createIngress p lib sha224 vo s) := by
  unfold Ingress.Ready at h
  unfold createIngress
  cases htype : vo.type <;> simp only [htype] at h ⊢
  case ss =>
    obtain ⟨o, ho⟩ := h
    rw [shadowsocksIngress, ho]
    exact .ok _
  case socks5 => exact .bind (sound_ingressLayer lib vo s) fun _ _ => sound_socks5Ingress _ h
  case http => exact .bind (sound_ingressLayer lib vo s) fun _ _ => sound_httpIngress p _ h
  case dual => exact .bind (sound_ingressLayer lib vo s) fun _ _ => .ok _
  case trojan =>
    obtain ⟨⟨c, hc⟩, ⟨o, ho⟩, ht⟩ := h
    apply Sound.bind (sound_trojanIngressLayer lib ht s)
    intro underlying _
    rw [trojanIngress, hc, ho]
    exact .ok _
  case transp => exact .ok _
  case tunnel => exact .ok _

/-- Either delegate of a ready dual ingress can be built. -/
theorem sound_dualDelegate {vo : Ingress} (h : vo.Ready) (hdual : vo.type = .dual) (first : UInt8)
    (underlying : Layer Context Socket) : Sound (dualDelegate p vo first underlying) := by
  simp only [Ingress.Ready, hdual] at h
  unfold dualDelegate
  split
  · exact sound_socks5Ingress _ h
  · exact sound_httpIngress p _ h

/-- The balancer of a ready tunnel is built, over the destinations of the tunnel. -/
theorem Balancer.initializeManner_of_ready {vo : Ingress} (h : vo.Ready)
    (htunnel : vo.type = .tunnel) :
    ∃ b, Balancer.initializeManner vo = .ok b ∧ b.peers ≠ [] := by
  simp only [Ingress.Ready, htunnel] at h
  obtain ⟨o, ho, hne⟩ := h
  have hassert : Build.assertTrue (!o.destinations.isEmpty) = .ok () := by
    simp [Build.assertTrue, hne]
  have hrun : Balancer.initializeManner vo
      = Build.assertTrue (!o.destinations.isEmpty) >>= fun _ => match o.balance with
        | .random => pure (.random o.destinations ((o.destinations.length + (2 ^ 64 - 1)) % 2 ^ 64))
        | .roundRobin => pure (.roundRobin o.destinations 0)
        | .leastConn => pure (.leastConn (LeastConn.make o)) := by
    rw [initializeManner, htunnel, ho]
    rfl
  rw [hrun, hassert]
  cases o.balance with
  | random => exact ⟨_, rfl, hne⟩
  | roundRobin => exact ⟨_, rfl, hne⟩
  | leastConn => exact ⟨_, rfl, by simpa [peers, LeastConn.peers_make] using hne⟩

theorem sound_tlsClient (opt : TlsEgressOption) (sn : Bytes) : Sound (tlsClient lib opt sn) := by
  unfold tlsClient
  split
  · exact .outside _
  · split
    · rename_i hsome
      obtain ⟨f, hf⟩ := Option.isSome_iff_exists.mp hsome
      exact .bind (.deref_some hf) fun _ _ => .outside _
    · exact .outside _

theorem sound_applySni (sni : Option Bytes) (ctx : Context) : Sound (applySni lib sni ctx) := by
  cases sni with
  | none => exact .ok _
  | some name => exact .outside _

theorem sound_egressLayer {vo : Egress} (h : ∃ e, vo.server = some e) :
    Sound (egressLayer lib vo) := by
  obtain ⟨e, he⟩ := h
  unfold egressLayer
  split
  · rename_i hsome
    obtain ⟨t, ht⟩ := Option.isSome_iff_exists.mp hsome
    exact .bind (.deref_some ht) fun _ _ => .bind (.deref_some he) fun _ _ =>
      .bind (sound_tlsClient lib _ _) fun _ _ => .ok _
  · exact .ok _

theorem sound_trojanEgressLayer {vo : Egress} (h : ∃ e, vo.server = some e)
    (ht : ∃ t, vo.tls = some t) : Sound (trojanEgressLayer lib vo) := by
  obtain ⟨e, he⟩ := h
  obtain ⟨t, ht⟩ := ht
  unfold trojanEgressLayer
  split
  · rename_i hsome
    obtain ⟨w, hw⟩ := Option.isSome_iff_exists.mp hsome
    exact .bind (.deref_some hw) fun _ _ => .bind (.deref_some ht) fun _ _ =>
      .bind (.deref_some he) fun _ _ => .bind (sound_tlsClient lib _ _) fun _ _ =>
        .bind (sound_applySni lib _ _) fun _ _ => .ok _
  · exact .bind (.deref_some ht) fun _ _ => .bind (.deref_some he) fun _ _ =>
      .bind (sound_tlsClient lib _ _) fun _ _ => .bind (sound_applySni lib _ _) fun _ _ => .ok _

/-- `gen_data` reads the alternative it expects; it may still write behind its array. -/
theorem genData_ne_badVariant {vo : Egress} (h : ∀ c, vo.credential = some c → ∃ u, c = .up u) :
    Socks5.genData vo ≠ badVariant := by
  unfold Socks5.genData
  cases hc : vo.credential with
  | none => simp [badVariant]
  | some c =>
      obtain ⟨u, rfl⟩ := h c hc
      simp only [EgressCredential.getUp, badVariant, bind, Except.bind]
      split <;> simp [pure, Except.pure]

theorem sound_socks5Egress {vo : Egress} (underlying : Layer Context Socket)
    (hs : ∃ e, vo.server = some e) (h : ∀ c, vo.credential = some c → ∃ u, c = .up u) :
    Sound (socks5Egress vo underlying) := by
  obtain ⟨e, he⟩ := hs
  exact .bind (.deref_some he) fun _ _ => .bind (.call (genData_ne_badVariant h)) fun _ _ => .ok _

theorem sound_httpEgress {vo : Egress} (underlying : Layer Context Socket)
    (hs : ∃ e, vo.server = some e) (h : ∀ c, vo.credential = some c → ∃ u, c = .up u) :
    Sound (httpEgress p vo underlying) := by
  obtain ⟨e, he⟩ := hs
  apply Sound.bind (.deref_some he)
  intro peer _
  split
  · rename_i hsome
    obtain ⟨c, hc⟩ := Option.isSome_iff_exists.mp hsome
    obtain ⟨u, rfl⟩ := h c hc
    rw [hc]
    exact .ok _
  · exact .ok _

theorem sound_calcDelay {opt : RejectOption} (h : opt.mode = .fixed → ∃ d, opt.delay = some d) :
    Sound (calcDelay lib opt) := by
  unfold calcDelay
  cases hmode : opt.mode with
  | random => exact .ok _
  | fixed =>
      obtain ⟨d, hd⟩ := h hmode
      exact .bind (.deref_some hd) fun _ _ => .ok _

/-- Building a ready egress fails for outside reasons only. -/
theorem sound_createEgress {vo : Egress} (h : vo.Ready) :
    Sound (createEgress p lib sha224 vo) := by
  unfold Egress.Ready at h
  unfold createEgress
  cases htype : vo.type <;> simp only [htype] at h ⊢
  case ss =>
    obtain ⟨⟨e, he⟩, o, ho⟩ := h
    rw [shadowsocksEgress, ho, he]
    exact .ok _
  case direct => exact .ok _
  case reject =>
    obtain ⟨o, ho, hdelay⟩ := h
    have hrun : rejectEgress lib vo
        = calcDelay lib o >>= fun delay =>
          (pure (.reject delay) : Build (TcpEgress Context Socket)) := by
      rw [rejectEgress, ho]
      rfl
    rw [hrun]
    exact .bind (sound_calcDelay lib hdelay) fun _ _ => .ok _
  case socks5 =>
    exact .bind (sound_egressLayer lib h.1) fun _ _ => sound_socks5Egress _ h.1 h.2
  case http =>
    exact .bind (sound_egressLayer lib h.1) fun _ _ => sound_httpEgress p _ h.1 h.2
  case trojan =>
    obtain ⟨⟨e, he⟩, ⟨c, hc⟩, ht⟩ := h
    apply Sound.bind (sound_trojanEgressLayer lib ⟨e, he⟩ ht)
    intro underlying _
    rw [trojanEgress, hc, he]
    exact .ok _

/-- **What `parse` accepts can be built.**  An accepted ingress, under any name, is built
without a misuse of its parts, as are both delegates of a dual ingress, and the balancer of
a tunnel is built, over at least one destination.  An accepted egress is built without a
misuse of its parts. -/
theorem adapters_of_parse (v : Json) :
    (∀ vo name s, Ingress.parse p v = .ok vo →
        Sound (createIngress p lib sha224 { vo with name := name } s)
        ∧ (vo.type = .dual → ∀ (first : UInt8) (underlying : Layer Context Socket),
            Sound (dualDelegate p { vo with name := name } first underlying))
        ∧ (vo.type = .tunnel →
            ∃ b, Balancer.initializeManner { vo with name := name } = .ok b ∧ b.peers ≠ []))
    ∧ ∀ vo, Egress.parse p v = .ok vo → Sound (createEgress p lib sha224 vo) := by
  constructor
  · intro vo name s h
    have hready : Ingress.Ready { vo with name := name } := (Ingress.ready_of_parse h).named name
    refine ⟨sound_createIngress p lib sha224 hready s, ?_, ?_⟩
    · intro hdual first underlying
      exact sound_dualDelegate p hready hdual first underlying
    · exact Balancer.initializeManner_of_ready hready
  · intro vo h
    exact sound_createEgress p lib sha224 (Egress.ready_of_parse h)

end Construction

/-- A library without any certificate files. -/
def bareLibrary : Library Unit Unit where
  serverContext := fun _ _ =>
    .error (.thrown (.systemError ⟨.asio (.other 2), "use_certificate_chain_file"⟩))
  clientContext := fun _ => .ok ()
  setHostName := fun _ _ => true
  socket := ()
  draw := 0

/-- A tunnel to one host. -/
def tunnelIngressJson : Json :=
  .obj [field "type" (.str (lit "tunnel")),
    field "bind" (.arr [.obj [field "host" (.str (lit "localhost")), field "port" (.int 80)]]),
    field "option" (LeastConn.tunnelJson ["one"])]

/-- A rejection without a delay. -/
def rejectEgressJson : Json :=
  .obj [field "type" (.str (lit "reject")),
    field "option" (.obj [field "mode" (.str (lit "fixed"))])]

theorem adapters_of_parse_example :
    (∃ vo b, Ingress.parse Reference.platform tunnelIngressJson = .ok vo
        ∧ Balancer.initializeManner vo = .ok b ∧ b.peers ≠ [])
      ∧ ∃ vo, Egress.parse Reference.platform rejectEgressJson = .ok vo
        ∧ Sound (createEgress Reference.platform bareLibrary
            (fun _ => ⟨List.replicate 56 48, rfl⟩) vo) := by
  constructor
  · obtain ⟨b, hb⟩ := ((adapters_of_parse Reference.platform bareLibrary
      (fun _ => ⟨List.replicate 56 48, rfl⟩) tunnelIngressJson).1 _ [] () rfl).2.2 rfl
    exact ⟨_, b, rfl, hb⟩
  · exact ⟨_, rfl, (adapters_of_parse Reference.platform bareLibrary
      (fun _ => ⟨List.replicate 56 48, rfl⟩) rejectEgressJson).2 _ rfl⟩

end Pichi
