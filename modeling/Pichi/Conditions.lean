/-
# What the conditions of a rule accept

`match_range` accepts the addresses that `hosts()` of the network walks through.  For an IPv4
network these are the addresses strictly between the network address and the broadcast address,
or the address itself if the prefix has 32 bits; for an IPv6 network all addresses of the block.
The end of a range is one past its last address, and wraps around after the highest address of
the family.

`match_domain` compares the texts from their ends, on views that are cut off where the shorter
text ends, and looks one character ahead for the dot between two labels.

**Main results**:
* `matchRange_exact_iff`: which addresses a matcher decides as the prefix of the network says;
* `matchDomain_exact`: a domain of the rule accepts itself and its subdomains.
-/
import Pichi.Routing

namespace Pichi

/-! ## Blocks -/

namespace Network

variable {n : ℕ}

/-- The first bits of the address, as many as the prefix has, are those of the network. -/
def SamePrefix (net : Network n) (a : AddressBytes n) : Prop :=
  ∀ i < net.prefixLength,
    a.toNat.testBit (8 * n - 1 - i) = net.address.toNat.testBit (8 * n - 1 - i)

instance (net : Network n) (a : AddressBytes n) : Decidable (net.SamePrefix a) :=
  inferInstanceAs (Decidable (∀ i < net.prefixLength, _))

/-- The highest address of the block. -/
def highest (net : Network n) : ℕ := net.lowest + net.size - 1

theorem size_pos (net : Network n) : 0 < net.size := Nat.two_pow_pos _

end Network

/-- The value of a text of bytes is below the power of 256. -/
theorem foldl_toNat_lt (l : Bytes) : ∀ acc : ℕ,
    l.foldl (fun acc b => acc * 256 + b.toNat) acc < (acc + 1) * 256 ^ l.length := by
  induction l with
  | nil => simp
  | cons b l ih =>
      intro acc
      rw [List.foldl_cons, List.length_cons, Nat.pow_succ']
      have hb : b.toNat < 256 := b.toNat_lt
      calc l.foldl (fun acc b => acc * 256 + b.toNat) (acc * 256 + b.toNat)
          < (acc * 256 + b.toNat + 1) * 256 ^ l.length := ih _
        _ ≤ ((acc + 1) * 256) * 256 ^ l.length := by
            apply Nat.mul_le_mul_right
            omega
        _ = (acc + 1) * (256 * 256 ^ l.length) := by rw [Nat.mul_assoc]

theorem AddressBytes.toNat_lt {n : ℕ} (a : AddressBytes n) : a.toNat < 2 ^ (8 * n) := by
  have h := foldl_toNat_lt a.1 0
  rw [a.2, Nat.zero_add, Nat.one_mul] at h
  rwa [Nat.pow_mul]

namespace Network

variable {n : ℕ} {net : Network n} {a : AddressBytes n}

/-- Two values agree above their last `k` bits. -/
theorem div_two_pow_eq_iff {x y k : ℕ} :
    x / 2 ^ k = y / 2 ^ k ↔ ∀ i, k ≤ i → x.testBit i = y.testBit i := by
  constructor
  · intro h i hi
    obtain ⟨j, rfl⟩ := Nat.exists_eq_add_of_le' hi
    rw [← Nat.testBit_div_two_pow, ← Nat.testBit_div_two_pow, h]
  · intro h
    apply Nat.eq_of_testBit_eq
    intro i
    rw [Nat.testBit_div_two_pow, Nat.testBit_div_two_pow]
    exact h _ (Nat.le_add_left k i)

theorem samePrefix_iff_div : net.SamePrefix a
    ↔ a.toNat / net.size = net.address.toNat / net.size := by
  rw [size, div_two_pow_eq_iff]
  have hle := net.prefixLength_le
  constructor
  · intro h i hi
    by_cases hhigh : i < 8 * n
    · have hbit := h (8 * n - 1 - i) (by omega)
      rwa [show 8 * n - 1 - (8 * n - 1 - i) = i by omega] at hbit
    · -- above the bits of an address everything is zero
      have hpow : 2 ^ (8 * n) ≤ 2 ^ i := Nat.pow_le_pow_right (by omega) (by omega)
      rw [Nat.testBit_lt_two_pow (Nat.lt_of_lt_of_le a.toNat_lt hpow),
        Nat.testBit_lt_two_pow (Nat.lt_of_lt_of_le net.address.toNat_lt hpow)]
  · intro h i hi
    exact h _ (by omega)

/-- **A block is the set of the addresses with its prefix.** -/
theorem samePrefix_iff : net.SamePrefix a ↔ net.lowest ≤ a.toNat ∧ a.toNat ≤ net.highest := by
  have hpos := net.size_pos
  rw [samePrefix_iff_div, Nat.div_eq_iff hpos, highest, lowest]

/-- A block does not reach beyond the addresses. -/
theorem highest_lt (net : Network n) : net.highest < 2 ^ (8 * n) := by
  have hpos := net.size_pos
  have hsplit : 2 ^ (8 * n) = net.size * 2 ^ net.prefixLength := by
    rw [size, ← Nat.pow_add]
    congr 1
    have := net.prefixLength_le
    omega
  have hblock : net.address.toNat / net.size + 1 ≤ 2 ^ net.prefixLength := by
    apply Nat.div_lt_of_lt_mul
    rw [← hsplit]
    exact net.address.toNat_lt
  have hend : net.lowest + net.size ≤ 2 ^ (8 * n) := by
    calc net.lowest + net.size = (net.address.toNat / net.size + 1) * net.size := by
          rw [lowest, Nat.add_mul, Nat.one_mul]
      _ ≤ 2 ^ net.prefixLength * net.size := Nat.mul_le_mul_right _ hblock
      _ = 2 ^ (8 * n) := by rw [hsplit, Nat.mul_comm]
  rw [highest]
  omega

end Network

/-! ## Hosts -/

/-- The addresses that `hosts()` of an IPv4 network leaves out: the lowest and the highest of
the block; of the networks of a single address, the highest address of all. -/
def Network.BorderV4 (net : Network 4) (a : AddressV4) : Prop :=
  if net.prefixLength = 32 then a.toNat = 2 ^ 32 - 1
  else a.toNat = net.lowest ∨ a.toNat = net.highest

/-- The block reaches up to the highest address, and the end of `hosts()` wraps around. -/
def Network.BorderV6 (net : Network 16) : Prop := net.highest = 2 ^ 128 - 1

instance (net : Network 4) (a : AddressV4) : Decidable (net.BorderV4 a) :=
  inferInstanceAs (Decidable (if net.prefixLength = 32 then _ = _ else _ ∨ _))

/-- A host network has one address. -/
theorem Network.borders_of_host {net : Network 4} (h : net.prefixLength = 32) :
    net.lowest = net.address.toNat ∧ net.highest = net.address.toNat := by
  have hsize : net.size = 1 := by rw [size, h, Nat.sub_self, Nat.pow_zero]
  constructor
  · rw [lowest, hsize, Nat.div_one, Nat.mul_one]
  · rw [highest, lowest, hsize, Nat.div_one, Nat.mul_one, Nat.add_sub_cancel]

theorem inHosts_hostsV4_iff {net : Network 4} {a : AddressV4} :
    inHosts (hostsV4 net) a.toNat = true ↔ net.SamePrefix a ∧ ¬net.BorderV4 a := by
  rw [Network.samePrefix_iff, Network.BorderV4, inHosts, hostsV4]
  have ha := a.toNat_lt
  split
  · rename_i h32
    obtain ⟨hlow, hhigh⟩ := Network.borders_of_host h32
    have hnet := net.address.toNat_lt
    rw [hlow, hhigh]
    simp only [Bool.and_eq_true, decide_eq_true_eq]
    omega
  · have hpos := net.size_pos
    have hhigh : net.highest = net.lowest + net.size - 1 := rfl
    simp only [Bool.and_eq_true, decide_eq_true_eq]
    omega

theorem inHosts_hostsV6_iff {net : Network 16} {a : AddressV6} :
    inHosts (hostsV6 net) a.toNat = true ↔ net.SamePrefix a ∧ ¬net.BorderV6 := by
  rw [Network.samePrefix_iff, Network.BorderV6, inHosts, hostsV6]
  have hpos := net.size_pos
  have hlt := net.highest_lt
  have hhigh : net.highest = net.lowest + net.size - 1 := rfl
  simp only [Bool.and_eq_true, decide_eq_true_eq]
  omega

/-! ## Matchers of ranges -/

variable {p : Platform} {rname ename r : Bytes} {rule : Rule} {egress : Egress} {m : Matcher}

/-- A matcher of a single range. -/
theorem Matcher.matchRange_singleton_iff (hmake : Matcher.make p rname rule ename egress = .ok m)
    (hrange : rule.range ++ rule.rangeNr = [r]) (a : Address) :
    m.matchRange [a] = true ↔ InRange p r a := by
  rw [Matcher.matchRange_iff hmake, hrange]
  simp

/-- **What a range matches.**  A matcher built from a rule with one range, given as a network of
either family, decides an address of that family by the prefix of the network, if and only if:
for IPv4, the address is outside of the block or not on its border; for IPv6, it is outside of
the block or the block does not reach up to the highest address. -/
theorem matchRange_exact_iff (hmake : Matcher.make p rname rule ename egress = .ok m)
    (hrange : rule.range ++ rule.rangeNr = [r]) :
    (∀ net (a : AddressV4), p.makeNetworkV4 r = some net →
        ((m.matchRange [.v4 a] = true ↔ net.SamePrefix a)
          ↔ (net.SamePrefix a → ¬net.BorderV4 a)))
      ∧ ∀ net (a : AddressV6), p.makeNetworkV4 r = none → p.makeNetworkV6 r = some net →
        ((m.matchRange [.v6 a] = true ↔ net.SamePrefix a)
          ↔ (net.SamePrefix a → ¬net.BorderV6)) := by
  constructor
  · intro net a hnet
    have hin : InRange p r (.v4 a) ↔ net.SamePrefix a ∧ ¬net.BorderV4 a := by
      rw [← inHosts_hostsV4_iff]
      simp [InRange, hnet]
    rw [Matcher.matchRange_singleton_iff hmake hrange, hin]
    tauto
  · intro net a hnot hnet
    have hin : InRange p r (.v6 a) ↔ net.SamePrefix a ∧ ¬net.BorderV6 := by
      rw [← inHosts_hostsV6_iff]
      simp [InRange, hnot, hnet]
    rw [Matcher.matchRange_singleton_iff hmake hrange, hin]
    tauto

namespace Ranges

/-- A rule with one range. -/
def ruleOf (range : String) : Rule := { range := [lit range] }

/-- The matcher of the rule. -/
def matcherOf (range : String) : Result Matcher :=
  Matcher.make Reference.platform (lit "r") (ruleOf range) (lit "direct")
    ⟨.direct, none, none, none, none, none⟩

theorem exists_matcher (range : String) (a : Address) (b : Bool)
    (h : (matcherOf range).toOption.map (fun m => m.matchRange [a]) = some b) :
    ∃ m, matcherOf range = .ok m ∧ m.matchRange [a] = b := by
  cases hmake : matcherOf range with
  | error f =>
      rw [hmake] at h
      cases h
  | ok m =>
      rw [hmake] at h
      exact ⟨m, rfl, Option.some.inj h⟩

/-- An address in the middle of a block. -/
theorem matchRange_exact_example :
    ∃ m net, matcherOf "10.0.0.0/8" = .ok m
      ∧ Reference.platform.makeNetworkV4 (lit "10.0.0.0/8") = some net
      ∧ m.matchRange [.v4 ⟨[10, 1, 1, 1], rfl⟩] = true
      ∧ net.SamePrefix ⟨[10, 1, 1, 1], rfl⟩ := by
  obtain ⟨m, hmake, hmatch⟩ := exists_matcher "10.0.0.0/8" (.v4 ⟨[10, 1, 1, 1], rfl⟩) true
    (by decide +kernel)
  have hborder : (Reference.platform.makeNetworkV4 (lit "10.0.0.0/8")).any
      (fun net => decide ¬net.BorderV4 ⟨[10, 1, 1, 1], rfl⟩) = true := by decide +kernel
  obtain ⟨net, hnet, hborder⟩ := (Option.any_eq_true _ _).mp hborder
  refine ⟨m, net, hmake, hnet, hmatch, ?_⟩
  exact (((matchRange_exact_iff hmake rfl).1 net _ hnet).mpr fun _ =>
    of_decide_eq_true hborder).mp hmatch

/-- The network of all IPv6 addresses. -/
def allV6 : String := "0000:0000:0000:0000:0000:0000:0000:0000/0"

/-- A network contains its own address, and the network of all addresses contains every one;
the matchers do not accept them. -/
theorem matchRange_exact_counterexample :
    (∃ m net, matcherOf "10.0.0.0/8" = .ok m
        ∧ Reference.platform.makeNetworkV4 (lit "10.0.0.0/8") = some net
        ∧ ¬(m.matchRange [.v4 ⟨[10, 0, 0, 0], rfl⟩] = true
          ↔ net.SamePrefix ⟨[10, 0, 0, 0], rfl⟩))
      ∧ ∃ m net, matcherOf allV6 = .ok m ∧ Reference.platform.makeNetworkV4 (lit allV6) = none
        ∧ Reference.platform.makeNetworkV6 (lit allV6) = some net
        ∧ ¬(m.matchRange [.v6 ⟨List.replicate 15 0 ++ [1], rfl⟩] = true
          ↔ net.SamePrefix ⟨List.replicate 15 0 ++ [1], rfl⟩) := by
  constructor
  · obtain ⟨m, hmake, hmatch⟩ := exists_matcher "10.0.0.0/8" (.v4 ⟨[10, 0, 0, 0], rfl⟩) false
      (by decide +kernel)
    have hprefix : (Reference.platform.makeNetworkV4 (lit "10.0.0.0/8")).any
        (fun net => decide (net.SamePrefix ⟨[10, 0, 0, 0], rfl⟩)) = true := by decide +kernel
    obtain ⟨net, hnet, hprefix⟩ := (Option.any_eq_true _ _).mp hprefix
    refine ⟨m, net, hmake, hnet, fun hiff => ?_⟩
    rw [hmatch] at hiff
    cases hiff.mpr (of_decide_eq_true hprefix)
  · obtain ⟨m, hmake, hmatch⟩ := exists_matcher allV6
      (.v6 ⟨List.replicate 15 0 ++ [1], rfl⟩) false (by decide +kernel)
    have hnot : (Reference.platform.makeNetworkV4 (lit allV6)).isNone = true := by
      decide +kernel
    have hprefix : (Reference.platform.makeNetworkV6 (lit allV6)).any
        (fun net => decide (net.SamePrefix ⟨List.replicate 15 0 ++ [1], rfl⟩)) = true := by
      decide +kernel
    obtain ⟨net, hnet, hprefix⟩ := (Option.any_eq_true _ _).mp hprefix
    refine ⟨m, net, hmake, Option.isNone_iff_eq_none.mp hnot, hnet, fun hiff => ?_⟩
    rw [hmatch] at hiff
    cases hiff.mpr (of_decide_eq_true hprefix)

end Ranges

/-! ## Domains -/

/-- A domain name in lower case, without a leading dot. -/
def normalized (name : Bytes) : Bytes := dropDot (toLowerStr name)

theorem toLower_eq_dot_iff (c : UInt8) : toLower c = 46 ↔ c = 46 := by
  unfold toLower
  split
  · rename_i hupper
    obtain ⟨hlow, hhigh⟩ := hupper
    rw [UInt8.le_iff_toNat_le] at hlow hhigh
    simp only [← UInt8.toNat_inj, UInt8.toNat_add, UInt8.reduceToNat] at *
    omega
  · rfl

/-- It does not matter whether the dot is dropped first. -/
theorem toLowerStr_dropDot (name : Bytes) : toLowerStr (dropDot name) = normalized name := by
  cases name with
  | nil => rfl
  | cons c name =>
      simp only [normalized, dropDot, toLowerStr, List.map_cons, List.head?_cons,
        Option.some.injEq, toLower_eq_dot_iff]
      split
      · rfl
      · rfl

theorem dropDot_eq_nil_iff (name : Bytes) : dropDot name = [] ↔ normalized name = [] := by
  rw [← toLowerStr_dropDot, toLowerStr, List.map_eq_nil_iff]

/-- **What a domain matches.**  For every matcher that was built and every peer: `match_domain`
accepts exactly the domain names that are, in lower case and without a leading dot, a domain of
the rule, or end with a dot and a domain of the rule; an empty domain accepts nothing. -/
theorem matchDomain_exact (hmake : Matcher.make p rname rule ename egress = .ok m)
    (peer : Endpoint) :
    m.matchDomain peer = true ↔ peer.type = .domainName ∧ peer.host ≠ []
      ∧ ∃ d ∈ rule.domain, normalized d ≠ []
        ∧ (normalized peer.host = normalized d
          ∨ 46 :: normalized d <:+ normalized peer.host) := by
  rw [Matcher.matchDomain_iff hmake]
  have hin : ∀ d, InDomain (toLowerStr (dropDot d)) (dropDot (toLowerStr peer.host))
      ↔ normalized peer.host = normalized d ∨ 46 :: normalized d <:+ normalized peer.host := by
    intro d
    rw [toLowerStr_dropDot, InDomain, List.IsSuffix]
    simp only [normalized, eq_comm]
  simp only [ne_eq, dropDot_eq_nil_iff, hin]

/-- The rule has a domain in mixed case; a peer below it is accepted. -/
theorem matchDomain_exact_example :
    ∃ m, Matcher.make Reference.platform (lit "r") { domain := [lit ".Example.com"] } (lit "direct")
        ⟨.direct, none, none, none, none, none⟩ = .ok m
      ∧ m.matchDomain ⟨.domainName, lit "WWW.example.COM", 443⟩ = true := by
  obtain ⟨m, hmake⟩ := exists_eq_ok_of_isOk (x := Matcher.make Reference.platform (lit "r")
    { domain := [lit ".Example.com"] } (lit "direct") ⟨.direct, none, none, none, none, none⟩)
    (by decide +kernel)
  refine ⟨m, hmake, (matchDomain_exact hmake _).mpr ⟨rfl, by decide, _, List.mem_singleton.mpr rfl,
    by decide, Or.inr ⟨lit "www", by decide⟩⟩⟩

end Pichi
