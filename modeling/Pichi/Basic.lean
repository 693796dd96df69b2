/-
# Bytes, error codes and exceptions

The vocabulary every other module shares: byte strings (`std::string`,
`std::string_view` and the buffers of `common/buffer.hpp`), the error
enumeration of `common/enumerations.hpp`, and the ways in which a C++ call can
leave other than by returning.

Two layers of failure are kept apart by their types:

* `Checked α`: code whose only failures are `fail`, `assertTrue` and
  `assertFalse` of `common/asserts.cpp`, so that every failure is a
  `boost::system::system_error`;
* `Result α`: code that may also leave by another exception family, or reach
  undefined behaviour (dereferencing an empty `std::optional`).
-/
import Mathlib.Data.List.AList
import Mathlib.Data.List.TakeWhile

namespace Pichi

/-! ## Bytes -/

/-- A byte string: `std::string`, `std::string_view`, `ConstBuffer`. -/
abbrev Bytes := List UInt8

/-- The bytes of an ASCII string literal of the source. -/
def lit (s : String) : Bytes := s.toList.map fun c => c.toNat.toUInt8

/-- `std::string{p}` for a `char const*`: the bytes before the first NUL. -/
def cString (s : Bytes) : Bytes := s.takeWhile (· ≠ 0)

/-- The string before the first NUL is the whole string exactly when there is no NUL. -/
theorem cString_eq_self_iff {s : Bytes} : cString s = s ↔ 0 ∉ s := by
  rw [cString, List.takeWhile_eq_self_iff]
  constructor
  · intro h hmem
    simpa using h 0 hmem
  · intro h x hx
    simp only [ne_eq, decide_eq_true_eq]
    rintro rfl
    exact h hx

/-- `std::tolower` in the C locale. -/
def toLower (c : UInt8) : UInt8 := if 65 ≤ c ∧ c ≤ 90 then c + 32 else c

/-- `to_lower_str`. -/
def toLowerStr (s : Bytes) : Bytes := s.map toLower

/-- `std::unordered_map<std::string, Value>`; the order of the entries carries
no meaning. -/
abbrev ValueMap (Value : Type) := AList fun _ : Bytes => Value

/-! ## Enumerations (`common/enumerations.hpp`) -/

inductive EndpointType : Type where
  | domainName | ipv4 | ipv6
  deriving DecidableEq, Repr

inductive AdapterType : Type where
  | direct | reject | socks5 | http | ss | tunnel | trojan | transp | dual
  deriving DecidableEq, Repr

inductive CryptoMethod : Type where
  | aes128Gcm | aes192Gcm | aes256Gcm | chacha20IetfPoly1305 | xchacha20IetfPoly1305
  deriving DecidableEq, Repr

inductive DelayMode : Type where
  | random | fixed
  deriving DecidableEq, Repr

inductive BalanceType : Type where
  | random | roundRobin | leastConn
  deriving DecidableEq, Repr

inductive PichiError : Type where
  | ok | badProto | cryptoError | bufferOverflow | badJson | semanticError | resInUse
  | resLocked | connFailure | badAuthMethod | unauthenticated | misc
  deriving DecidableEq, Repr

/-- `ErrorCategory::message` (`common/error.cpp`). -/
def PichiError.message : PichiError → String
  | .ok => "OK"
  | .badProto => "Bad protocol"
  | .cryptoError => "Crypto error"
  | .bufferOverflow => "Buffer maximum exceeded"
  | .badJson => "Invalid JSON"
  | .semanticError => "JSON semantic error"
  | .resInUse => "Resource in use"
  | .resLocked => "Resource locked"
  | .connFailure => "Connection failure"
  | .badAuthMethod => "Bad authentication method"
  | .unauthenticated => "Authentication failure"
  | .misc => "Misc error"

/-! ## Failures -/

/-- The `boost::asio::error` codes the source names; `other` is any further
code of the operating system or of a resolver. -/
inductive AsioError : Type where
  | addressFamilyNotSupported | addressInUse | connectionRefused | connectionReset | eof
  | hostNotFound | hostUnreachable | invalidArgument | networkDown | networkUnreachable
  | operationAborted | timedOut
  | other (value : ℕ)
  deriving DecidableEq, Repr

/-- `boost::system::error_code`: a value together with its category. -/
inductive ErrorCode : Type where
  | pichi (e : PichiError)
  | asio (e : AsioError)
  | http (value : ℕ)
  deriving DecidableEq, Repr

/-- `boost::system::system_error`. -/
structure SystemError where
  code : ErrorCode
  what : String
  deriving DecidableEq, Repr

/-- The exception families that occur in the modelled code. -/
inductive Exception : Type where
  | systemError (e : SystemError)
  | regexError
  | outOfRange
  | badVariantAccess
  | invalidAuthenticationTag
  | keyNotSet
  deriving DecidableEq, Repr

/-- How a call can end other than by returning: by an exception, by an operation the
language leaves undefined, or not at all, in a loop that makes no progress. -/
inductive Fault : Type where
  | thrown (e : Exception)
  | undefinedBehaviour
  | divergence
  deriving DecidableEq, Repr

/-- A computation whose failures are all `system_error`s. -/
abbrev Checked (α : Type) := Except SystemError α

/-- A computation that may leave by any fault. -/
abbrev Result (α : Type) := Except Fault α

namespace Checked

variable {α : Type}

/-- `fail(PichiError, msg)`. -/
def fail (e : PichiError) (msg : String) : Checked α :=
  .error ⟨.pichi e, msg⟩

/-- `assertTrue(bool, PichiError, msg)`. -/
def assertTrue (b : Bool) (e : PichiError) (msg : String) : Checked Unit :=
  if b then .ok () else fail e msg

/-- `assertFalse(bool, PichiError, msg)`. -/
def assertFalse (b : Bool) (e : PichiError) (msg : String) : Checked Unit :=
  assertTrue (!b) e msg

/-- A checked computation seen from code that knows more kinds of faults. -/
def lift : Checked α → Result α
  | .ok a => .ok a
  | .error e => .error (.thrown (.systemError e))

@[simp] theorem lift_ok (a : α) : lift (.ok a) = .ok a := rfl

@[simp] theorem lift_error (e : SystemError) :
    lift (α := α) (.error e) = .error (.thrown (.systemError e)) := rfl

theorem assertTrue_eq_ok_iff {b : Bool} {e : PichiError} {msg : String} {u : Unit} :
    assertTrue b e msg = .ok u ↔ b = true := by
  unfold assertTrue fail
  cases b <;> simp

theorem assertFalse_eq_ok_iff {b : Bool} {e : PichiError} {msg : String} {u : Unit} :
    assertFalse b e msg = .ok u ↔ b = false := by
  unfold assertFalse
  rw [assertTrue_eq_ok_iff]
  cases b <;> simp

end Checked

/-- A sequence of two computations returns exactly when both do. -/
theorem bind_eq_ok_iff {ε α β : Type} {x : Except ε α} {f : α → Except ε β} {b : β} :
    (x >>= f) = .ok b ↔ ∃ a, x = .ok a ∧ f a = .ok b := by
  cases x with
  | error e => simp [bind, Except.bind]
  | ok a => simp [bind, Except.bind]

theorem exists_eq_ok_of_isOk {ε α : Type} {x : Except ε α} (h : x.isOk = true) :
    ∃ a, x = .ok a := by
  cases x with
  | error e => cases h
  | ok a => exact ⟨a, rfl⟩

/-- A loop over a list returns exactly when every iteration does. -/
theorem mapM_eq_ok_iff {ε α β : Type} {f : α → Except ε β} :
    ∀ {l : List α} {ys : List β},
      l.mapM f = .ok ys ↔ List.Forall₂ (fun x y => f x = .ok y) l ys := by
  intro l
  induction l with
  | nil =>
      intro ys
      cases ys <;> simp [pure, Except.pure]
  | cons x l ih =>
      intro ys
      rw [List.mapM_cons, bind_eq_ok_iff]
      constructor
      · rintro ⟨y, hy, h⟩
        obtain ⟨ys', hys', h⟩ := bind_eq_ok_iff.mp h
        cases h
        exact .cons hy (ih.mp hys')
      · intro h
        cases h with
        | cons hy hys => exact ⟨_, hy, bind_eq_ok_iff.mpr ⟨_, ih.mpr hys, rfl⟩⟩

/-- A loop over a list fails as its first failing iteration does. -/
theorem mapM_eq_error_iff {ε α β : Type} {f : α → Except ε β} {e : ε} :
    ∀ {l : List α}, l.mapM f = .error e ↔
      ∃ pre a post, l = pre ++ a :: post ∧ (∀ x ∈ pre, ∃ y, f x = .ok y) ∧ f a = .error e := by
  intro l
  induction l with
  | nil => simp [pure, Except.pure]
  | cons x l ih =>
      rw [List.mapM_cons]
      cases hx : f x with
      | error e' =>
          constructor
          · intro h
            cases h
            exact ⟨[], x, l, rfl, by simp, hx⟩
          · rintro ⟨pre, a, post, hl, hpre, ha⟩
            cases pre with
            | nil =>
                obtain ⟨rfl, -⟩ := List.cons.inj hl
                rw [← hx, ha]
                rfl
            | cons b pre =>
                obtain ⟨rfl, -⟩ := List.cons.inj hl
                obtain ⟨y, hy⟩ := hpre x (by simp)
                rw [hx] at hy
                cases hy
      | ok y =>
          have hrest : ((.ok y : Except ε β) >>= fun y => l.mapM f >>= fun ys =>
              (pure (y :: ys) : Except ε (List β))) = .error e ↔ l.mapM f = .error e := by
            cases l.mapM f <;> simp [bind, Except.bind, pure, Except.pure]
          rw [hrest, ih]
          constructor
          · rintro ⟨pre, a, post, rfl, hpre, ha⟩
            refine ⟨x :: pre, a, post, rfl, ?_, ha⟩
            intro b hb
            rcases List.mem_cons.mp hb with rfl | hb
            · exact ⟨y, hx⟩
            · exact hpre b hb
          · rintro ⟨pre, a, post, hl, hpre, ha⟩
            cases pre with
            | nil =>
                obtain ⟨rfl, -⟩ := List.cons.inj hl
                rw [hx] at ha
                cases ha
            | cons b pre =>
                obtain ⟨rfl, rfl⟩ := List.cons.inj hl
                exact ⟨pre, a, post, rfl, fun z hz => hpre z (by simp [hz]), ha⟩

/-- A loop none of whose iterations fails returns. -/
theorem exists_mapM_eq_ok {ε α β : Type} {f : α → Except ε β} :
    ∀ {l : List α}, (∀ x ∈ l, ∃ y, f x = .ok y) → ∃ ys, l.mapM f = .ok ys := by
  intro l h
  cases hl : l.mapM f with
  | ok ys => exact ⟨ys, rfl⟩
  | error e =>
      obtain ⟨pre, a, post, rfl, -, ha⟩ := mapM_eq_error_iff.mp hl
      obtain ⟨y, hy⟩ := h a (by simp)
      rw [hy] at ha
      cases ha

/-- Every iteration of a loop that returns does. -/
theorem exists_of_mapM_eq_ok {ε α β : Type} {f : α → Except ε β} {l : List α} {ys : List β}
    (h : l.mapM f = .ok ys) : ∀ x ∈ l, ∃ y, f x = .ok y := by
  intro x hx
  have hall := mapM_eq_ok_iff.mp h
  obtain ⟨i, hi, rfl⟩ := List.getElem_of_mem hx
  exact ⟨_, hall.get hi (by rw [← hall.length_eq]; exact hi)⟩

/-- Every result of a loop is that of an iteration. -/
theorem exists_of_mem_mapM {ε α β : Type} {f : α → Except ε β} {l : List α} {ys : List β} {y : β}
    (h : l.mapM f = .ok ys) (hy : y ∈ ys) : ∃ x ∈ l, f x = .ok y := by
  have hall := mapM_eq_ok_iff.mp h
  obtain ⟨i, hi, rfl⟩ := List.getElem_of_mem hy
  have hi' : i < l.length := by
    rw [hall.length_eq]
    exact hi
  exact ⟨l[i], List.getElem_mem hi', hall.get hi' hi⟩

/-- A loop depends on its body at the elements it visits only. -/
theorem mapM_congr {ε α β : Type} {f g : α → Except ε β} {l : List α}
    (h : ∀ x ∈ l, f x = g x) : l.mapM f = l.mapM g := by
  induction l with
  | nil => rfl
  | cons x l ih =>
      rw [List.mapM_cons, List.mapM_cons, h x (by simp), ih fun y hy => h y (by simp [hy])]

/-- The dereference `*o` of a `std::optional`. -/
def deref {α : Type} : Option α → Result α
  | some a => .ok a
  | none => .error .undefinedBehaviour

end Pichi
