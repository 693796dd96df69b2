/-
# The endpoint codec

The encoder and the decoders of `Endpoint.lean` are inverse to each other.

* `serializeEndpoint_eq_ok_iff`: when the encoder accepts, and what it writes;
* `parse_endpoint_of_serialize`: a supplier that works through a stream starting with an
  encoded endpoint makes the decoder return that endpoint, leaving the rest of the
  stream; this is the form the protocols use;
* `serialize_of_parse_endpoint`: what the decoder accepted is what the encoder writes
  for its result;
* `parseEndpoint_eq_run`: the callback version and the coroutine are the same decoder.
-/
import Pichi.Reference

namespace Pichi

open Transfer

/-- The same destination: type and port agree, and so do the bytes of the name or of
the address. -/
def SameEndpoint (p : Platform) (e e' : Endpoint) : Prop :=
  e'.type = e.type ∧ e'.port = e.port ∧
    match e.type with
    | .domainName => e'.host = e.host
    | .ipv4 => p.makeAddressV4 e'.host = p.makeAddressV4 e.host
    | .ipv6 => p.makeAddressV6 e'.host = p.makeAddressV6 e.host

/-- The endpoints that have a wire form: a name of 1 to 255 bytes, or an IP type whose
host text is an address of that family. -/
def HasWireForm (p : Platform) (e : Endpoint) : Prop :=
  match e.type with
  | .domainName => 1 ≤ e.host.length ∧ e.host.length ≤ 255
  | .ipv4 => (p.makeAddressV4 e.host).isSome
  | .ipv6 => (p.makeAddressV6 e.host).isSome

/-! ## The array behind the decoders -/

theorem headD_overwrite_singleton (buf : Bytes) (x : UInt8) :
    (overwrite buf [x]).headD 0 = x := rfl

theorem take_overwrite {buf w : Bytes} {n : ℕ} (h : n ≤ w.length) :
    (overwrite buf w).take n = w.take n := by
  rw [overwrite, List.take_append_of_le_length h]

theorem drop_overwrite {buf w : Bytes} {n : ℕ} (h : n ≤ w.length) :
    (overwrite buf w).drop n = w.drop n ++ buf.drop w.length := by
  rw [overwrite, List.drop_append_of_le_length h]

theorem toAddress_overwrite {n : ℕ} {buf w : Bytes} (h : n ≤ w.length) :
    toAddress n (overwrite buf w) = ⟨w.take n, List.length_take_of_le h⟩ := by
  apply Subtype.ext
  show (overwrite buf w ++ List.replicate n 0).take n = w.take n
  rw [overwrite, List.append_assoc, List.take_append_of_le_length h]

/-! ## When the encoder accepts -/

section Encoder

variable {p : Platform} {e : Endpoint} {capacity : ℕ} {out : Bytes}

theorem ipv4ToBytes_eq_ok_iff {text b : Bytes} :
    ipv4ToBytes p text = .ok b ↔ ∃ a, p.makeAddressV4 text = some a ∧ b = a.1 := by
  unfold ipv4ToBytes
  cases p.makeAddressV4 text <;> simp [eq_comm]

theorem ipv6ToBytes_eq_ok_iff {text b : Bytes} :
    ipv6ToBytes p text = .ok b ↔ ∃ a, p.makeAddressV6 text = some a ∧ b = a.1 := by
  unfold ipv6ToBytes
  cases p.makeAddressV6 text <;> simp [eq_comm]

/-- **The encoder's three layouts.** -/
theorem serializeEndpoint_eq_ok_iff :
    serializeEndpoint p e capacity = .ok out ↔ e.host ≠ [] ∧
      match e.type with
      | .domainName => e.host.length ≤ 255 ∧ 4 + e.host.length ≤ capacity
          ∧ out = 0x03 :: UInt8.ofNat e.host.length :: (e.host ++ hton e.port)
      | .ipv4 => 7 ≤ capacity
          ∧ ∃ a, p.makeAddressV4 e.host = some a ∧ out = 0x01 :: (a.1 ++ hton e.port)
      | .ipv6 => 19 ≤ capacity
          ∧ ∃ a, p.makeAddressV6 e.host = some a ∧ out = 0x04 :: (a.1 ++ hton e.port) := by
  obtain ⟨type, host, port⟩ := e
  cases type with
  | domainName =>
      simp only [serializeEndpoint, bind_eq_ok_iff, Checked.assertFalse_eq_ok_iff,
        Checked.assertTrue_eq_ok_iff, pure, Except.pure, Except.ok.injEq, decide_eq_true_eq]
      constructor
      · rintro ⟨-, hne, head, ⟨-, hle, -, hcap, rfl⟩, rfl⟩
        exact ⟨by simpa using hne, hle, hcap, by simp⟩
      · rintro ⟨hne, hle, hcap, rfl⟩
        exact ⟨(), by simpa using hne, _, ⟨(), hle, (), hcap, rfl⟩, by simp⟩
  | ipv4 =>
      simp only [serializeEndpoint, bind_eq_ok_iff, Checked.assertFalse_eq_ok_iff,
        Checked.assertTrue_eq_ok_iff, ipv4ToBytes_eq_ok_iff, pure, Except.pure,
        Except.ok.injEq, decide_eq_true_eq]
      constructor
      · rintro ⟨-, hne, head, ⟨-, hcap, b, ⟨a, ha, rfl⟩, rfl⟩, rfl⟩
        exact ⟨by simpa using hne, hcap, a, ha, by simp⟩
      · rintro ⟨hne, hcap, a, ha, rfl⟩
        exact ⟨(), by simpa using hne, _, ⟨(), hcap, _, ⟨a, ha, rfl⟩, rfl⟩, by simp⟩
  | ipv6 =>
      simp only [serializeEndpoint, bind_eq_ok_iff, Checked.assertFalse_eq_ok_iff,
        Checked.assertTrue_eq_ok_iff, ipv6ToBytes_eq_ok_iff, pure, Except.pure,
        Except.ok.injEq, decide_eq_true_eq]
      constructor
      · rintro ⟨-, hne, head, ⟨-, hcap, b, ⟨a, ha, rfl⟩, rfl⟩, rfl⟩
        exact ⟨by simpa using hne, hcap, a, ha, by simp⟩
      · rintro ⟨hne, hcap, a, ha, rfl⟩
        exact ⟨(), by simpa using hne, _, ⟨(), hcap, _, ⟨a, ha, rfl⟩, rfl⟩, by simp⟩

/-- An endpoint with a wire form is accepted by every buffer that holds the longest
layout. -/
theorem exists_serializeEndpoint (hp : p.AddressText) (he : HasWireForm p e)
    (hcap : 259 ≤ capacity) : ∃ out, serializeEndpoint p e capacity = .ok out := by
  obtain ⟨type, host, port⟩ := e
  simp only [serializeEndpoint_eq_ok_iff]
  cases type with
  | domainName =>
      obtain ⟨hpos, hle⟩ := he
      have hpos' : 1 ≤ host.length := hpos
      have hle' : host.length ≤ 255 := hle
      exact ⟨_, List.ne_nil_of_length_pos (by omega), hle', by omega, rfl⟩
  | ipv4 =>
      obtain ⟨a, ha⟩ := Option.isSome_iff_exists.mp he
      refine ⟨_, ?_, by omega, a, ha, rfl⟩
      rintro rfl
      rw [hp.v4_nil] at ha
      cases ha
  | ipv6 =>
      obtain ⟨a, ha⟩ := Option.isSome_iff_exists.mp he
      refine ⟨_, ?_, by omega, a, ha, rfl⟩
      rintro rfl
      rw [hp.v6_nil] at ha
      cases ha

/-- What the encoder accepts has a wire form. -/
theorem hasWireForm_of_serialize (hout : serializeEndpoint p e capacity = .ok out) :
    HasWireForm p e := by
  obtain ⟨type, host, port⟩ := e
  obtain ⟨hne, hout⟩ := serializeEndpoint_eq_ok_iff.mp hout
  cases type with
  | domainName => exact ⟨List.length_pos_of_ne_nil hne, hout.1⟩
  | ipv4 =>
      obtain ⟨-, a, ha, -⟩ := hout
      exact Option.isSome_of_eq_some ha
  | ipv6 =>
      obtain ⟨-, a, ha, -⟩ := hout
      exact Option.isSome_of_eq_some ha

/-- The same destination has the same wire form. -/
theorem serializeEndpoint_of_same {e' : Endpoint} {capacity' : ℕ} {out' : Bytes}
    (hsame : SameEndpoint p e e') (hout : serializeEndpoint p e capacity = .ok out)
    (hout' : serializeEndpoint p e' capacity' = .ok out') : out' = out := by
  obtain ⟨type, host, port⟩ := e
  obtain ⟨type', host', port'⟩ := e'
  obtain ⟨htype, hport, hhost⟩ := hsame
  simp only at htype hport hhost
  subst htype hport
  rw [serializeEndpoint_eq_ok_iff] at hout hout'
  obtain ⟨-, hout⟩ := hout
  obtain ⟨-, hout'⟩ := hout'
  cases type' with
  | domainName =>
      obtain ⟨-, -, rfl⟩ := hout
      obtain ⟨-, -, rfl⟩ := hout'
      rw [hhost]
  | ipv4 =>
      obtain ⟨-, a, ha, rfl⟩ := hout
      obtain ⟨-, a', ha', rfl⟩ := hout'
      simp only at hhost ha ha'
      rw [hhost, ha, Option.some.injEq] at ha'
      rw [ha']
  | ipv6 =>
      obtain ⟨-, a, ha, rfl⟩ := hout
      obtain ⟨-, a', ha', rfl⟩ := hout'
      simp only at hhost ha ha'
      rw [hhost, ha, Option.some.injEq] at ha'
      rw [ha']

/-- The longest layout is the one of a name of 255 bytes. -/
theorem length_serializeEndpoint_le (hout : serializeEndpoint p e capacity = .ok out) :
    out.length ≤ 259 := by
  obtain ⟨type, host, port⟩ := e
  rw [serializeEndpoint_eq_ok_iff] at hout
  obtain ⟨-, hout⟩ := hout
  cases type with
  | domainName =>
      obtain ⟨hle, -, rfl⟩ := hout
      simp only [List.length_cons, List.length_append, length_hton]
      simp only at hle
      omega
  | ipv4 =>
      obtain ⟨-, a, -, rfl⟩ := hout
      simp [a.2]
  | ipv6 =>
      obtain ⟨-, a, -, rfl⟩ := hout
      simp [a.2]

end Encoder

/-! ## Decoding what was encoded -/

section Decoder

variable {p : Platform} {S : Type} {supply : S → ℕ → Result Bytes × S} {R : S → Bytes → Prop}

/-- One answered request of the decoder. -/
theorem run_read_of_supplies {α : Type} (hsup : Reader.SuppliesSome supply R) {n : ℕ}
    {k : Bytes → Reader UInt8 Fault α} {s : S} {w t : Bytes} (hn : w.length = n + 1)
    (hs : R s (w ++ t)) :
    ∃ s', R s' t ∧ (Reader.read (n + 1) k).run supply s = (k w).run supply s' := by
  obtain ⟨s', hsupply, hs'⟩ := hsup s w t (List.ne_nil_of_length_eq_add_one hn) hs
  exact ⟨s', hs', Reader.run_read_of_ok (hn ▸ hsupply)⟩

theorem parse_endpoint_ipv4 (hsup : Reader.SuppliesSome supply R) {s : S} {t : Bytes}
    (a : AddressV4) (port : UInt16) (hs : R s (0x01 :: (a.1 ++ hton port) ++ t)) :
    ∃ s', R s' t ∧
      (parse_endpoint p).run supply s = (.ok ⟨.ipv4, p.toStringV4 a, port⟩, s') := by
  have ha := a.2
  obtain ⟨s₁, hs₁, h₁⟩ := run_read_of_supplies (w := [0x01]) (n := 0) hsup rfl hs
  obtain ⟨s₂, hs₂, h₂⟩ := run_read_of_supplies (w := a.1 ++ hton port) (n := 5) (t := t)
    hsup (by simp [ha]) hs₁
  refine ⟨s₂, hs₂, ?_⟩
  rw [parse_endpoint, h₁]
  simp only [headD_overwrite_singleton, if_true]
  rw [h₂, Reader.run, toAddress_overwrite (by simp [ha]), drop_overwrite (by simp [ha])]
  simp only [List.take_left' ha, List.drop_left' ha, ntoh_hton_append]

theorem parse_endpoint_ipv6 (hsup : Reader.SuppliesSome supply R) {s : S} {t : Bytes}
    (a : AddressV6) (port : UInt16) (hs : R s (0x04 :: (a.1 ++ hton port) ++ t)) :
    ∃ s', R s' t ∧
      (parse_endpoint p).run supply s = (.ok ⟨.ipv6, p.toStringV6 a, port⟩, s') := by
  have ha := a.2
  obtain ⟨s₁, hs₁, h₁⟩ := run_read_of_supplies (w := [0x04]) (n := 0) hsup rfl hs
  obtain ⟨s₂, hs₂, h₂⟩ := run_read_of_supplies (w := a.1 ++ hton port) (n := 17) (t := t)
    hsup (by simp [ha]) hs₁
  refine ⟨s₂, hs₂, ?_⟩
  rw [parse_endpoint, h₁]
  simp only [headD_overwrite_singleton, show ¬ ((0x04 : UInt8) = 0x01) by decide,
    show ¬ ((0x04 : UInt8) = 0x03) by decide, if_true, if_false]
  rw [h₂, Reader.run, toAddress_overwrite (by simp [ha]), drop_overwrite (by simp [ha])]
  simp only [List.take_left' ha, List.drop_left' ha, ntoh_hton_append]

theorem parse_endpoint_domainName (hsup : Reader.SuppliesSome supply R) {s : S} {t : Bytes}
    (host : Bytes) (port : UInt16) (hne : host ≠ []) (hle : host.length ≤ 255)
    (hs : R s (0x03 :: UInt8.ofNat host.length :: (host ++ hton port) ++ t)) :
    ∃ s', R s' t ∧
      (parse_endpoint p).run supply s = (.ok ⟨.domainName, host, port⟩, s') := by
  have hlen : (UInt8.ofNat host.length).toNat = host.length := by
    rw [UInt8.toNat_ofNat']
    omega
  have hpos : 0 < host.length := List.length_pos_iff.mpr hne
  obtain ⟨s₁, hs₁, h₁⟩ := run_read_of_supplies (w := [0x03]) (n := 0) hsup rfl hs
  obtain ⟨s₂, hs₂, h₂⟩ := run_read_of_supplies (w := [UInt8.ofNat host.length]) (n := 0)
    hsup rfl hs₁
  obtain ⟨s₃, hs₃, h₃⟩ := run_read_of_supplies (w := host ++ hton port) (n := host.length + 1)
    (t := t) hsup (by simp) hs₂
  refine ⟨s₃, hs₃, ?_⟩
  rw [parse_endpoint, h₁]
  simp only [headD_overwrite_singleton, show ¬ ((0x03 : UInt8) = 0x01) by decide,
    if_true, if_false]
  rw [h₂]
  simp only [headD_overwrite_singleton, hlen, hpos, if_true]
  rw [h₃, Reader.run, take_overwrite (by simp), drop_overwrite (by simp)]
  simp only [List.take_left, List.drop_left, ntoh_hton_append]

/-- **Decoding undoes encoding.**  The supplier is arbitrary: a byte string, a socket
in any segmentation, a protocol's cache. -/
theorem parse_endpoint_of_serialize (hp : p.AddressText) (hsup : Reader.SuppliesSome supply R)
    {e : Endpoint} {capacity : ℕ} {out t : Bytes} {s : S}
    (hout : serializeEndpoint p e capacity = .ok out) (hs : R s (out ++ t)) :
    ∃ e' s', (parse_endpoint p).run supply s = (.ok e', s') ∧ R s' t ∧ SameEndpoint p e e' := by
  obtain ⟨type, host, port⟩ := e
  rw [serializeEndpoint_eq_ok_iff] at hout
  obtain ⟨hne, hout⟩ := hout
  cases type with
  | domainName =>
      obtain ⟨hle, -, rfl⟩ := hout
      obtain ⟨s', hs', hrun⟩ := parse_endpoint_domainName (p := p) hsup host port hne hle hs
      exact ⟨_, s', hrun, hs', rfl, rfl, rfl⟩
  | ipv4 =>
      obtain ⟨-, a, ha, rfl⟩ := hout
      obtain ⟨s', hs', hrun⟩ := parse_endpoint_ipv4 (p := p) hsup a port hs
      exact ⟨_, s', hrun, hs', rfl, rfl, (hp.v4 a).trans ha.symm⟩
  | ipv6 =>
      obtain ⟨-, a, ha, rfl⟩ := hout
      obtain ⟨s', hs', hrun⟩ := parse_endpoint_ipv6 (p := p) hsup a port hs
      exact ⟨_, s', hrun, hs', rfl, rfl, (hp.v6 a).trans ha.symm⟩

end Decoder

/-! ## Byte strings as the supplier -/

theorem fromBytes_append (w t : Bytes) : fromBytes (w ++ t) w.length = (.ok w, t) := by
  simp [fromBytes]

/-- A byte string supplies itself. -/
theorem fromBytes_supplies : Reader.Supplies fromBytes Eq := by
  rintro s w t rfl
  exact ⟨t, fromBytes_append w t, rfl⟩

theorem of_fromBytes_eq_ok {s t w : Bytes} {n : ℕ} (h : fromBytes s n = (.ok w, t)) :
    s = w ++ t ∧ w.length = n := by
  unfold fromBytes at h
  split at h
  · rename_i hn
    simp only [Prod.mk.injEq, Except.ok.injEq] at h
    obtain ⟨rfl, rfl⟩ := h
    exact ⟨(List.take_append_drop n s).symm, by simp [hn]⟩
  · simp at h

/-- One request of the decoder that a byte string answered. -/
theorem exists_of_run_read_fromBytes {α : Type} {n : ℕ} {k : Bytes → Reader UInt8 Fault α}
    {s t : Bytes} {v : α} (h : (Reader.read n k).run fromBytes s = (.ok v, t)) :
    ∃ w s', s = w ++ s' ∧ w.length = n ∧ (k w).run fromBytes s' = (.ok v, t) := by
  obtain ⟨w, s', hsupply, hrun⟩ := Reader.exists_of_run_read_eq_ok h
  obtain ⟨hs, hn⟩ := of_fromBytes_eq_ok hsupply
  exact ⟨w, s', hs, hn, hrun⟩

/-- The two last bytes of a layout are the port the decoder returns. -/
theorem hton_ntoh_drop {w buf : Bytes} {n : ℕ} (hw : w.length = n + 2) :
    hton (ntoh ((overwrite buf w).drop n)) = w.drop n := by
  rw [drop_overwrite (by omega)]
  have h2 : (w.drop n).length = 2 := by simp [hw]
  obtain ⟨a, b, hab⟩ := List.length_eq_two.mp h2
  rw [hab]
  exact hton_ntoh a b _

section Consumed

variable {p : Platform} {buf input rest : Bytes} {e : Endpoint}

/-- The bytes of an IPv4 layout after its tag. -/
theorem serialize_of_parse_ipv4 (hp : p.AddressText)
    (h : (Reader.read 6 fun w => .ret ⟨.ipv4, p.toStringV4 (toAddress 4 (overwrite buf w)),
      ntoh ((overwrite buf w).drop 4)⟩).run fromBytes input = (.ok e, rest)) :
    ∃ w, input = w ++ rest ∧
      ∀ capacity, (0x01 :: w).length ≤ capacity →
        serializeEndpoint p e capacity = .ok (0x01 :: w) := by
  obtain ⟨w, s, rfl, hw, h⟩ := exists_of_run_read_fromBytes h
  cases h
  refine ⟨w, rfl, fun capacity hcap => ?_⟩
  rw [serializeEndpoint_eq_ok_iff]
  refine ⟨hp.toStringV4_ne_nil _, by simp [hw] at hcap; omega, _, hp.v4 _, ?_⟩
  rw [toAddress_overwrite (by omega), hton_ntoh_drop (n := 4) hw, List.take_append_drop]

/-- The bytes of an IPv6 layout after its tag. -/
theorem serialize_of_parse_ipv6 (hp : p.AddressText)
    (h : (Reader.read 18 fun w => .ret ⟨.ipv6, p.toStringV6 (toAddress 16 (overwrite buf w)),
      ntoh ((overwrite buf w).drop 16)⟩).run fromBytes input = (.ok e, rest)) :
    ∃ w, input = w ++ rest ∧
      ∀ capacity, (0x04 :: w).length ≤ capacity →
        serializeEndpoint p e capacity = .ok (0x04 :: w) := by
  obtain ⟨w, s, rfl, hw, h⟩ := exists_of_run_read_fromBytes h
  cases h
  refine ⟨w, rfl, fun capacity hcap => ?_⟩
  rw [serializeEndpoint_eq_ok_iff]
  refine ⟨hp.toStringV6_ne_nil _, by simp [hw] at hcap; omega, _, hp.v6 _, ?_⟩
  rw [toAddress_overwrite (by omega), hton_ntoh_drop (n := 16) hw, List.take_append_drop]

/-- The bytes of a name after its tag and its length. -/
theorem serialize_of_parse_name {len : UInt8} (hpos : 0 < len.toNat)
    (h : (Reader.read (len.toNat + 2) fun w => .ret ⟨.domainName, (overwrite buf w).take len.toNat,
      ntoh ((overwrite buf w).drop len.toNat)⟩).run fromBytes input = (.ok e, rest)) :
    ∃ w, input = w ++ rest ∧ ∀ capacity, (0x03 :: len :: w).length ≤ capacity →
      serializeEndpoint p e capacity = .ok (0x03 :: len :: w) := by
  have hlen := len.toNat_lt
  obtain ⟨w, s, rfl, hw, h⟩ := exists_of_run_read_fromBytes h
  cases h
  have htake : (w.take len.toNat).length = len.toNat := by simp; omega
  refine ⟨w, rfl, fun capacity hcap => ?_⟩
  rw [serializeEndpoint_eq_ok_iff]
  simp only [take_overwrite (show len.toNat ≤ w.length by omega), htake]
  refine ⟨?_, by omega, by simp [hw] at hcap; omega, ?_⟩
  · exact List.ne_nil_of_length_pos (by omega)
  · rw [hton_ntoh_drop (n := len.toNat) hw, UInt8.ofNat_toNat, List.take_append_drop]

/-- **Encoding undoes decoding.**  Whatever the decoder accepts, it consumes exactly
the bytes the encoder writes for its result. -/
theorem serialize_of_parse_endpoint (hp : p.AddressText)
    (h : (parse_endpoint p).run fromBytes input = (.ok e, rest)) :
    ∃ used, input = used ++ rest ∧
      ∀ capacity, used.length ≤ capacity → serializeEndpoint p e capacity = .ok used := by
  rw [parse_endpoint] at h
  obtain ⟨w₁, s₁, rfl, hw₁, h₁⟩ := exists_of_run_read_fromBytes h
  obtain ⟨tag, rfl⟩ := List.length_eq_one_iff.mp hw₁
  simp only [headD_overwrite_singleton] at h₁
  by_cases htag4 : tag = 0x01
  · simp only [htag4, if_true] at h₁
    obtain ⟨w, rfl, hserialize⟩ := serialize_of_parse_ipv4 hp h₁
    exact ⟨0x01 :: w, by simp [htag4], hserialize⟩
  simp only [htag4, if_false] at h₁
  by_cases htag3 : tag = 0x03
  · simp only [htag3, if_true] at h₁
    obtain ⟨w₂, s₂, rfl, hw₂, h₂⟩ := exists_of_run_read_fromBytes h₁
    obtain ⟨len, rfl⟩ := List.length_eq_one_iff.mp hw₂
    simp only [headD_overwrite_singleton] at h₂
    by_cases hpos : 0 < len.toNat
    · simp only [hpos, if_true] at h₂
      obtain ⟨w, rfl, hserialize⟩ := serialize_of_parse_name (p := p) hpos h₂
      exact ⟨0x03 :: len :: w, by simp [htag3], hserialize⟩
    · -- an empty name is refused
      simp [hpos, Reader.run] at h₂
  simp only [htag3, if_false] at h₁
  by_cases htag6 : tag = 0x04
  · simp only [htag6, if_true] at h₁
    obtain ⟨w, rfl, hserialize⟩ := serialize_of_parse_ipv6 hp h₁
    exact ⟨0x04 :: w, by simp [htag6], hserialize⟩
  · simp [htag6, Reader.run] at h₁

end Consumed

/-! ## The two decoders -/

/-- The callback version and the coroutine are the same decoder, for every reader and
every state of it. -/
theorem parseEndpoint_eq_run (p : Platform) {S : Type} (read : S → ℕ → Result Bytes × S) (s : S) :
    parseEndpoint p read s = (parse_endpoint p).run read s := by
  unfold parseEndpoint parse_endpoint
  rw [Reader.run]
  rcases read s 1 with ⟨_ | w, s₁⟩
  · rfl
  · simp only
    split
    · rw [Reader.run]
      rcases read s₁ 6 with ⟨_ | w₂, s₂⟩ <;> rfl
    · split
      · rw [Reader.run]
        rcases read s₁ 1 with ⟨_ | w₂, s₂⟩
        · rfl
        · simp only
          split
          · rw [Reader.run]
            rcases read s₂ _ with ⟨_ | w₃, s₃⟩ <;> rfl
          · rfl
      · split
        · rw [Reader.run]
          rcases read s₁ 18 with ⟨_ | w₂, s₂⟩ <;> rfl
        · rfl

/-! ## The codec -/

/-- **The endpoint codec.**  Every endpoint with a wire form is encoded, and the decoder
returns it from the encoded bytes and any suffix, consuming exactly those bytes; every
byte string the decoder accepts is, as far as it is consumed, the encoding of the
result; and the two decoders agree on every reader. -/
theorem endpoint_codec {p : Platform} (hp : p.AddressText) :
    (∀ e, HasWireForm p e → ∀ capacity,
      (259 ≤ capacity → ∃ out, serializeEndpoint p e capacity = .ok out) ∧
      ∀ out suffix, serializeEndpoint p e capacity = .ok out →
        ∃ e', (parse_endpoint p).run fromBytes (out ++ suffix) = (.ok e', suffix)
          ∧ SameEndpoint p e e')
    ∧ (∀ input rest e, (parse_endpoint p).run fromBytes input = (.ok e, rest) →
      ∃ used, input = used ++ rest ∧
        ∀ capacity, used.length ≤ capacity → serializeEndpoint p e capacity = .ok used)
    ∧ (∀ (S : Type) (read : S → ℕ → Result Bytes × S) (s : S),
      parseEndpoint p read s = (parse_endpoint p).run read s) := by
  refine ⟨fun e he capacity => ⟨fun hcap => exists_serializeEndpoint hp he hcap, ?_⟩, ?_, ?_⟩
  · intro out suffix hout
    obtain ⟨e', rest, hrun, rfl, hsame⟩ :=
      parse_endpoint_of_serialize hp fromBytes_supplies.suppliesSome hout (t := suffix) rfl
    exact ⟨e', hrun, hsame⟩
  · intro input rest e h
    exact serialize_of_parse_endpoint hp h
  · intro S read s
    exact parseEndpoint_eq_run p read s

/-- The codec at `example.com:443` followed by a byte. -/
theorem endpoint_codec_example :
    ∃ e', (parse_endpoint Reference.platform).run fromBytes
        (0x03 :: 11 :: (lit "example.com" ++ [1, 187]) ++ [7]) = (.ok e', [7])
      ∧ SameEndpoint Reference.platform ⟨.domainName, lit "example.com", 443⟩ e' :=
  ((endpoint_codec Reference.platform_addressText).1
    ⟨.domainName, lit "example.com", 443⟩
    (show 1 ≤ (lit "example.com").length ∧ (lit "example.com").length ≤ 255 by decide)
    512).2 _ [7] (by decide)

end Pichi
