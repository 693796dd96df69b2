/-
# The key of a password

`generate_psk` of `stream/shadowsocks.cpp`, on the memory it works in.  Each round writes one
digest to the window `data` and moves the window behind it; `tmp` is a view of what the round
before has written, and goes into the digest of the next round together with the password.  The
number of bytes asked for need not be a multiple of 16, so that the last digest may reach beyond
the key, though not beyond the array.

* `pskRounds` is the loop, as far as a number of rounds goes, on the array `set_psk` provides;
* `evpDigest` is the sequence of digests `EVP_BytesToKey` is defined by;
* `generatePsk_eq_evp`: the model the streams use computes the same bytes.

**Main result** (`psk_eq_evp`): the loop comes to an end, writes no byte outside of the array,
and leaves in the key the first bytes of the digests.
-/
import Pichi.Trojan
import Pichi.Reference

namespace Pichi

namespace Psk

open Trojan (Window)

/-! ## The loop on its memory -/

/-- The bytes a buffer shows of an array. -/
def view (array : Bytes) (w : Window) : Bytes := (array.drop w.offset).take w.size

/-- `HashFunction::final` into a buffer, which has to have room for the digest. -/
def final (digest : Bytes) (w : Window) (array : Bytes) : Result Bytes :=
  if digest.length ≤ w.size ∧ w.offset + digest.length ≤ array.length then
    .ok (array.take w.offset ++ digest ++ array.drop (w.offset + digest.length))
  else .error .undefinedBehaviour

/-- The loop of `generate_psk`: `i` counts the bytes, and `array` is what `data` points to. -/
def pskRounds (c : Crypto) (pw : Bytes) (size : ℕ) :
    ℕ → ℕ → Window → Window → Bytes → Option (Result Bytes)
  | 0, _, _, _, _ => none
  | fuel + 1, i, tmp, data, array =>
    if i < size then
      let digest := (c.md5 (view array tmp ++ pw)).1
      match final digest data array with
      | .error f => some (.error f)
      | .ok array =>
        let tmp : Window := ⟨data.offset, digest.length⟩
        pskRounds c pw size fuel (i + tmp.size) tmp (data.advance digest.length) array
    else some (.ok array)

/-- `generate_psk` on an array, with the bytes the buffer shows that it returns. -/
def generatePskIn (c : Crypto) (pw array : Bytes) (size fuel : ℕ) :
    Option (Result (Bytes × Bytes)) :=
  (pskRounds c pw size fuel 0 ⟨0, 0⟩ ⟨0, array.length⟩ array).map fun r =>
    r.map fun array => (view array ⟨0, size⟩, array)

/-! ## The digests -/

/-- `D₁ = MD5(pw)` and `Dᵢ₊₁ = MD5(Dᵢ ++ pw)`; the first one has the number 0. -/
def evpDigest (c : Crypto) (pw : Bytes) : ℕ → Bytes
  | 0 => (c.md5 pw).1
  | i + 1 => (c.md5 (evpDigest c pw i ++ pw)).1

/-- `D₁ ++ … ++ Dₙ`. -/
def evpBytes (c : Crypto) (pw : Bytes) (n : ℕ) : Bytes := (List.range n).flatMap (evpDigest c pw)

variable {c : Crypto} {pw : Bytes} {size : ℕ}

theorem length_evpDigest (i : ℕ) : (evpDigest c pw i).length = 16 := by
  cases i with
  | zero => exact (c.md5 _).2
  | succ i => exact (c.md5 _).2

theorem evpBytes_succ (n : ℕ) : evpBytes c pw (n + 1) = evpBytes c pw n ++ evpDigest c pw n := by
  rw [evpBytes, List.range_succ, List.flatMap_append, List.flatMap_singleton, evpBytes]

theorem length_evpBytes (n : ℕ) : (evpBytes c pw n).length = 16 * n := by
  induction n with
  | zero => rfl
  | succ n ih =>
      rw [evpBytes_succ, List.length_append, ih, length_evpDigest]
      omega

/-- Fewer digests are the beginning of more. -/
theorem evpBytes_isPrefix (c : Crypto) (pw : Bytes) {m n : ℕ} (h : m ≤ n) :
    evpBytes c pw m <+: evpBytes c pw n := by
  obtain ⟨k, rfl⟩ := Nat.exists_eq_add_of_le h
  induction k with
  | zero => exact List.prefix_rfl
  | succ k ih =>
      rw [← Nat.add_assoc, evpBytes_succ]
      exact (ih (Nat.le_add_right m k)).trans (List.prefix_append _ _)

/-- The first bytes do not depend on how many digests there are, if there are enough. -/
theorem take_evpBytes {m n : ℕ} (hm : size ≤ 16 * m) (hn : size ≤ 16 * n) :
    (evpBytes c pw m).take size = (evpBytes c pw n).take size := by
  have htake : ∀ {m n : ℕ}, m ≤ n → size ≤ 16 * m →
      (evpBytes c pw m).take size = (evpBytes c pw n).take size := by
    intro m n hle hm
    obtain ⟨t, ht⟩ := evpBytes_isPrefix c pw hle
    rw [← ht, List.take_append_of_le_length (by rwa [length_evpBytes])]
  rcases Nat.le_total m n with hle | hle
  · exact htake hle hm
  · exact (htake hle hn).symm

/-! ## Every round -/

/-- A digest that fits is written to the start of the window, and is what a view of that place
shows afterwards. -/
theorem final_of_room (digest : Bytes) (w : Window) (array : Bytes) (hsize : digest.length ≤ w.size)
    (hlength : w.offset + digest.length ≤ array.length) :
    ∃ array', final digest w array = .ok array' ∧ array'.length = array.length
      ∧ array'.take (w.offset + digest.length) = array.take w.offset ++ digest
      ∧ view array' ⟨w.offset, digest.length⟩ = digest := by
  have htake : (array.take w.offset).length = w.offset := by
    rw [List.length_take]
    omega
  refine ⟨_, if_pos ⟨hsize, hlength⟩, ?_, ?_, ?_⟩
  · simp only [List.length_append, List.length_drop, htake]
    omega
  · rw [List.take_append_of_le_length (by rw [List.length_append, htake])]
    exact List.take_of_length_le (by rw [List.length_append, htake])
  · rw [view, List.append_assoc, List.drop_append_of_le_length (by rw [htake]),
      List.drop_of_length_le (by rw [htake]), List.nil_append, List.take_left]

/-- **The loop from any round on.**  The digests so far stand at the start of the array, the
window behind them, and the next digest is the one of the view and the password. -/
theorem pskRounds_spec (c : Crypto) (pw : Bytes) (hsize : size ≤ 1024) (fuel : ℕ) :
    ∀ (r : ℕ) (tmp : Window) (array : Bytes), array.length = 1024 → r ≤ (size + 15) / 16 →
      array.take (16 * r) = evpBytes c pw r →
      (c.md5 (view array tmp ++ pw)).1 = evpDigest c pw r → (size + 15) / 16 < r + fuel →
      ∃ array' n, pskRounds c pw size fuel (16 * r) tmp ⟨16 * r, 1024 - 16 * r⟩ array
          = some (.ok array')
        ∧ array'.length = 1024 ∧ size ≤ 16 * n ∧ array'.take (16 * n) = evpBytes c pw n := by
  induction fuel with
  | zero =>
      intro r tmp array _ hr _ _ hfuel
      omega
  | succ fuel ih =>
      intro r tmp array harray hr htake hnext hfuel
      by_cases hlt : 16 * r < size
      · -- the digest is written behind the others, and the view is moved onto it
        have hdigest : (c.md5 (view array tmp ++ pw)).1.length = 16 :=
          (c.md5 (view array tmp ++ pw)).2
        obtain ⟨array', hfinal, hlength, htake', hview⟩ :=
          final_of_room (c.md5 (view array tmp ++ pw)).1 ⟨16 * r, 1024 - 16 * r⟩ array
            (by rw [hdigest]; show 16 ≤ 1024 - 16 * r; omega)
            (by rw [hdigest, harray]; show 16 * r + 16 ≤ 1024; omega)
        rw [hdigest, hnext] at htake' hview
        have hadvance : (⟨16 * r, 1024 - 16 * r⟩ : Window).advance 16
            = ⟨16 * (r + 1), 1024 - 16 * (r + 1)⟩ := by
          simp only [Window.advance, Window.mk.injEq]
          rw [if_pos (by omega)]
          omega
        obtain ⟨array'', n, hrest, hspec⟩ := ih (r + 1) ⟨16 * r, 16⟩ array'
          (hlength.trans harray) (by omega) (by rw [evpBytes_succ, ← htake]; exact htake')
          (by rw [hview]; rfl) (by omega)
        refine ⟨array'', n, ?_, hspec⟩
        rw [pskRounds, if_pos hlt]
        simp only [hfinal, hdigest, hadvance]
        exact hrest
      · refine ⟨array, r, ?_, harray, by omega, htake⟩
        rw [pskRounds, if_neg hlt]

/-- The loop of the model the streams use, from any round on. -/
theorem pskLoop_spec (c : Crypto) (pw : Bytes) (size fuel : ℕ) : ∀ {r : ℕ} {tmp : Bytes},
    (c.md5 (tmp ++ pw)).1 = evpDigest c pw r → size ≤ 16 * (r + fuel) →
    ∃ n, pskLoop c pw size fuel (16 * r) tmp (evpBytes c pw r) = evpBytes c pw n
      ∧ size ≤ 16 * n := by
  induction fuel with
  | zero =>
      intro r tmp _ hle
      exact ⟨r, rfl, hle⟩
  | succ fuel ih =>
      intro r tmp hnext hle
      rw [pskLoop]
      split
      · simp only [hnext, length_evpDigest, ← evpBytes_succ]
        exact ih (r := r + 1) rfl (by omega)
      · exact ⟨r, rfl, by omega⟩

/-- **What the streams use as the key of a password** are these bytes as well. -/
theorem generatePsk_eq_evp (c : Crypto) (pw : Bytes) {size n : ℕ} (hn : size ≤ 16 * n) :
    generatePsk c pw size = (evpBytes c pw n).take size := by
  obtain ⟨m, hloop, hm⟩ := pskLoop_spec c pw size size
    (show (c.md5 ([] ++ pw)).1 = evpDigest c pw 0 from rfl) (by omega)
  have hloop : pskLoop c pw size size 0 [] [] = evpBytes c pw m := hloop
  rw [generatePsk, hloop, take_evpBytes hm hn]

/-- **`generate_psk` is `EVP_BytesToKey`.**  For every password, every size up to the one of the
array and whatever the array holds at first: the loop ends after as many rounds as digests are
needed, no digest is written beyond the array, and what is returned are the first bytes of
`D₁ ++ D₂ ++ …`. -/
theorem psk_eq_evp (c : Crypto) (pw array : Bytes) (harray : array.length = 1024) (size : ℕ)
    (hsize : size ≤ 1024) (fuel : ℕ) (hfuel : (size + 15) / 16 < fuel) :
    ∃ psk array', generatePskIn c pw array size fuel = some (.ok (psk, array'))
      ∧ array'.length = 1024 ∧ psk.length = size
      ∧ ∀ n, size ≤ 16 * n → psk = (evpBytes c pw n).take size := by
  obtain ⟨array', m, hrounds, hlength, hm, htake⟩ := pskRounds_spec c pw hsize fuel
    0 ⟨0, 0⟩ array harray (Nat.zero_le _) rfl rfl (by omega)
  refine ⟨array'.take size, array', ?_, hlength, ?_, ?_⟩
  · rw [generatePskIn, harray]
    rw [hrounds]
    rfl
  · rw [List.length_take]
    omega
  · intro n hn
    rw [take_evpBytes hn hm, ← htake, List.take_take, Nat.min_eq_left hm]

/-- Ciphers with the true digest. -/
def Example.crypto : Crypto := { Reference.crypto with md5 := Reference.md5 }

/-- A key of 24 bytes for the password `a`: the first digest and one half of the second. -/
theorem psk_eq_evp_example :
    ∃ array', generatePskIn Example.crypto (lit "a") (List.replicate 1024 0) 24 3 = some (.ok
      ([0x0c, 0xc1, 0x75, 0xb9, 0xc0, 0xf1, 0xb6, 0xa8, 0x31, 0xc3, 0x99, 0xe2,
        0x69, 0x77, 0x26, 0x61, 0xce, 0xc5, 0x20, 0xea, 0x51, 0xea, 0x0a, 0x47], array')) := by
  obtain ⟨psk, array', hpsk, -, -, hevp⟩ := psk_eq_evp Example.crypto (lit "a")
    (List.replicate 1024 0) List.length_replicate 24 (by decide) 3 (by decide)
  have hbytes : (evpBytes Example.crypto (lit "a") 2).take 24
      = [0x0c, 0xc1, 0x75, 0xb9, 0xc0, 0xf1, 0xb6, 0xa8, 0x31, 0xc3, 0x99, 0xe2,
        0x69, 0x77, 0x26, 0x61, 0xce, 0xc5, 0x20, 0xea, 0x51, 0xea, 0x0a, 0x47] := by
    decide +kernel
  rw [hevp 2 (by decide), hbytes] at hpsk
  exact ⟨array', hpsk⟩

end Psk

end Pichi
