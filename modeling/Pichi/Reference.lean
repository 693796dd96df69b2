/-
# A reference platform

A concrete `Platform`, so that the hypotheses the development puts on third-party
code can be met and the model can be run.  It implements the parts of those functions
that the runs in this development use:

* IPv4 text as four decimal octets, and `address/length` networks;
* IPv6 text as eight groups of four hexadecimal digits, which is the canonical form of
  an address none of whose groups starts with a zero digit;
* JSON texts without escape sequences, fractions and exponents;
* regular expressions are taken to be well formed when their parentheses balance, and
  are searched for as plain text;
* base64 as in RFC 4648, and hexadecimal text in upper case.

`crypto` is a toy instance of the ciphers of a stream, which has what the development asks
of them and nothing more.
-/
import Pichi.Shadowsocks

namespace Pichi.Reference

/-! ## IPv4 text -/

/-- One octet: a decimal number below 256 in its canonical text. -/
def octet? (t : Bytes) : Option UInt8 :=
  let n := (takeDigits 0 t).1
  if n < 256 ∧ decimal n = t then some (UInt8.ofNat n) else none

/-- The octets, with points between them. -/
def toStringV4 (a : AddressV4) : Bytes :=
  [46].intercalate (a.1.map fun b => decimal b.toNat)

/-- Four octets; other forms of IPv4 text are not read. -/
def makeAddressV4 (text : Bytes) : Option AddressV4 :=
  match (text.splitOn 46).mapM octet? with
  | some b => if h : b.length = 4 then some ⟨b, h⟩ else none
  | none => none

theorem octet?_decimal (b : UInt8) : octet? (decimal b.toNat) = some b := by
  have hb := b.toNat_lt
  simp only [octet?, takeDigits_decimal]
  rw [if_pos ⟨by omega, trivial⟩, UInt8.ofNat_toNat]

/-- A decimal number has digits only. -/
theorem not_mem_decimal {n : ℕ} {b : UInt8} (h : b.toNat < 48 ∨ 57 < b.toNat) :
    b ∉ decimal n := by
  intro hb
  have := digit_of_mem_decimal hb
  omega

/-- Parsing a list of texts, each of which parses to the corresponding value. -/
theorem mapM_map_eq_some {α β : Type} {f : α → Bytes} {g : Bytes → Option β} {h : α → β}
    (hfg : ∀ a, g (f a) = some (h a)) (l : List α) : (l.map f).mapM g = some (l.map h) := by
  induction l with
  | nil => rfl
  | cons a l ih => simp [List.mapM_cons, hfg, ih]

/-- IPv4 text is read back. -/
theorem makeAddressV4_toStringV4 (a : AddressV4) : makeAddressV4 (toStringV4 a) = some a := by
  obtain ⟨b, hb⟩ := a
  have hsplit : (toStringV4 ⟨b, hb⟩).splitOn 46 = b.map fun x => decimal x.toNat := by
    apply List.splitOn_intercalate
    · intro l hl
      obtain ⟨x, -, rfl⟩ := List.mem_map.mp hl
      exact not_mem_decimal (Or.inl (by decide))
    · intro hnil
      have hb' : b = [] := List.map_eq_nil_iff.mp hnil
      rw [hb'] at hb
      exact absurd hb (by decide)
  rw [makeAddressV4, hsplit, mapM_map_eq_some (h := id) octet?_decimal]
  simp [hb]

/-! ## IPv6 text -/

/-- The digits of IPv6 text, which are lower case. -/
def hexDigit (n : ℕ) : UInt8 := UInt8.ofNat (if n < 10 then 48 + n else 87 + n)

/-- The value of a lower-case digit. -/
def hexValue? (b : UInt8) : Option ℕ :=
  if 48 ≤ b.toNat ∧ b.toNat ≤ 57 then some (b.toNat - 48)
  else if 97 ≤ b.toNat ∧ b.toNat ≤ 102 then some (b.toNat - 87)
  else none

/-- A byte as two digits. -/
def hexByte (b : UInt8) : Bytes := [hexDigit (b.toNat / 16), hexDigit (b.toNat % 16)]

/-- Two digits as a byte. -/
def hexByte? (hi lo : UInt8) : Option UInt8 := do
  return UInt8.ofNat ((← hexValue? hi) * 16 + (← hexValue? lo))

/-- A group of four hexadecimal digits. -/
def group? : Bytes → Option Bytes
  | [a, b, c, d] => do return [← hexByte? a b, ← hexByte? c d]
  | _ => none

/-- The groups of an address, two bytes each. -/
def groups : Bytes → List Bytes
  | a :: b :: t => (hexByte a ++ hexByte b) :: groups t
  | _ => []

/-- The groups, with colons between them. -/
def toStringV6 (a : AddressV6) : Bytes := [58].intercalate (groups a.1)

/-- Eight groups; the shortened forms are not read. -/
def makeAddressV6 (text : Bytes) : Option AddressV6 :=
  match (text.splitOn 58).mapM group? with
  | some b => if h : b.flatten.length = 16 then some ⟨b.flatten, h⟩ else none
  | none => none

theorem hexValue?_hexDigit {n : ℕ} (h : n < 16) : hexValue? (hexDigit n) = some n := by
  interval_cases n <;> decide

theorem hexByte?_hexByte (b : UInt8) :
    hexByte? (hexDigit (b.toNat / 16)) (hexDigit (b.toNat % 16)) = some b := by
  have hb := b.toNat_lt
  rw [hexByte?, hexValue?_hexDigit (by omega), hexValue?_hexDigit (by omega)]
  show some (UInt8.ofNat (b.toNat / 16 * 16 + b.toNat % 16)) = some b
  rw [Nat.div_add_mod', UInt8.ofNat_toNat]

/-- A colon is no digit. -/
theorem colon_notMem_hexByte (b : UInt8) : (58 : UInt8) ∉ hexByte b := by
  have hdigit : ∀ n, n < 16 → (58 : UInt8) ≠ hexDigit n := by
    intro n hn
    interval_cases n <;> decide
  have hb := b.toNat_lt
  simp only [hexByte, List.mem_cons, List.not_mem_nil, or_false, not_or]
  exact ⟨hdigit _ (by omega), hdigit _ (by omega)⟩

/-- The groups of an address parse back to its bytes. -/
theorem mapM_groups (k : ℕ) :
    ∀ b : Bytes, b.length = 2 * k →
      ∃ gs, (groups b).mapM group? = some gs ∧ gs.flatten = b := by
  induction k with
  | zero =>
      intro b hb
      have hnil : b = [] := List.length_eq_zero_iff.mp (by omega)
      exact ⟨[], by simp [hnil, groups], by simp [hnil]⟩
  | succ k ih =>
      intro b hb
      match b, hb with
      | x :: y :: t, hb =>
        obtain ⟨gs, hgs, hflat⟩ := ih t (by simp at hb; omega)
        refine ⟨[x, y] :: gs, ?_, by simp [hflat]⟩
        have hgroup : group? (hexByte x ++ hexByte y) = some [x, y] := by
          simp only [hexByte, List.cons_append, List.nil_append, group?]
          rw [hexByte?_hexByte, hexByte?_hexByte]
          rfl
        rw [groups, List.mapM_cons, hgroup, hgs]
        rfl

/-- The groups of an address can be told apart. -/
theorem colon_notMem_groups (k : ℕ) :
    ∀ b : Bytes, b.length = 2 * k → ∀ l ∈ groups b, (58 : UInt8) ∉ l := by
  induction k with
  | zero =>
      intro b hb l hl
      have hnil : b = [] := List.length_eq_zero_iff.mp (by omega)
      simp [hnil, groups] at hl
  | succ k ih =>
      intro b hb l hl
      match b, hb with
      | x :: y :: t, hb =>
        rw [groups, List.mem_cons] at hl
        rcases hl with rfl | hl
        · rw [List.mem_append, not_or]
          exact ⟨colon_notMem_hexByte x, colon_notMem_hexByte y⟩
        · exact ih t (by simp at hb; omega) l hl

theorem groups_ne_nil {b : Bytes} (h : b.length = 16) : groups b ≠ [] := by
  match b, h with
  | x :: y :: t, _ => simp [groups]

/-- IPv6 text is read back. -/
theorem makeAddressV6_toStringV6 (a : AddressV6) : makeAddressV6 (toStringV6 a) = some a := by
  obtain ⟨b, hb⟩ := a
  have hsplit : (toStringV6 ⟨b, hb⟩).splitOn 58 = groups b :=
    List.splitOn_intercalate 58 (colon_notMem_groups 8 b hb) (groups_ne_nil hb)
  obtain ⟨gs, hgs, hflat⟩ := mapM_groups 8 b hb
  rw [makeAddressV6, hsplit, hgs]
  simp [hflat, hb]

/-! ## Networks -/

/-- An address and the length of its prefix, in decimal digits. -/
def makeNetwork {n : ℕ} (makeAddress : Bytes → Option (AddressBytes n)) (text : Bytes) :
    Option (Network n) :=
  match text.splitOn 47 with
  | [address, length] =>
    match makeAddress address, takeDigits 0 length with
    | some a, (k, []) =>
      if h : length ≠ [] ∧ k ≤ 8 * n then some ⟨a, k, h.2⟩ else none
    | _, _ => none
  | _ => none

/-! ## JSON texts -/

/-- What follows the blanks. -/
def skipSpace (s : Bytes) : Bytes := s.dropWhile fun b => b = 32 || b = 10 || b = 13 || b = 9

/-- A string up to its closing quote; escape sequences are not read. -/
def stringBody : Bytes → Option (Bytes × Bytes)
  | [] => none
  | b :: t =>
    if b = 34 then some ([], t)
    else if b = 92 ∨ b < 32 then none
    else (stringBody t).map fun r => (b :: r.1, r.2)

mutual

/-- A value at the front of the text, and what follows it. -/
def value : ℕ → Bytes → Option (Json × Bytes)
  | 0, _ => none
  | fuel + 1, s =>
    match skipSpace s with
    | 123 :: t =>
      match skipSpace t with
      | 125 :: u => some (.obj [], u)
      | u => (members fuel u).map fun r => (.obj r.1, r.2)
    | 91 :: t =>
      match skipSpace t with
      | 93 :: u => some (.arr [], u)
      | u => (items fuel u).map fun r => (.arr r.1, r.2)
    | 34 :: t => (stringBody t).map fun r => (.str r.1, r.2)
    | 110 :: 117 :: 108 :: 108 :: t => some (.null, t)
    | 116 :: 114 :: 117 :: 101 :: t => some (.bool true, t)
    | 102 :: 97 :: 108 :: 115 :: 101 :: t => some (.bool false, t)
    | 45 :: b :: t =>
      if (digit? b).isSome then
        let r := takeDigits 0 (b :: t)
        some (.int (-(r.1 : ℤ)), r.2)
      else none
    | b :: t =>
      if (digit? b).isSome then
        let r := takeDigits 0 (b :: t)
        some (.int r.1, r.2)
      else none
    | [] => none

/-- The items of a non-empty array, up to its closing bracket. -/
def items : ℕ → Bytes → Option (List Json × Bytes)
  | 0, _ => none
  | fuel + 1, s => do
    let (v, t) ← value fuel s
    match skipSpace t with
    | 44 :: u => do
      let (vs, w) ← items fuel u
      return (v :: vs, w)
    | 93 :: u => return ([v], u)
    | _ => none

/-- The members of a non-empty object, up to its closing brace. -/
def members : ℕ → Bytes → Option (List (Bytes × Json) × Bytes)
  | 0, _ => none
  | fuel + 1, s =>
    match skipSpace s with
    | 34 :: t => do
      let (k, t) ← stringBody t
      match skipSpace t with
      | 58 :: t => do
        let (v, t) ← value fuel t
        match skipSpace t with
        | 44 :: u => do
          let (vs, w) ← members fuel u
          return ((k, v) :: vs, w)
        | 125 :: u => return ([(k, v)], u)
        | _ => none
      | _ => none
    | _ => none

end

/-- A value with nothing but blanks behind it. -/
def parseDocument (s : Bytes) : Option Json :=
  match value s.length s with
  | some (v, t) => if skipSpace t = [] then some v else none
  | none => none

/-! ## Regular expressions -/

/-- Whether every closing parenthesis has an opening one and none stays open. -/
def balanced : ℕ → Bytes → Bool
  | depth, [] => depth = 0
  | depth, b :: t =>
    if b = 40 then balanced (depth + 1) t
    else if b = 41 then 0 < depth && balanced (depth - 1) t
    else balanced depth t

/-! ## Base64 -/

/-- The alphabet. -/
def base64Char (n : ℕ) : UInt8 :=
  UInt8.ofNat
    (if n < 26 then 65 + n else if n < 52 then 71 + n else if n < 62 then n - 4
      else if n = 62 then 43 else 47)

/-- Three bytes at a time; the last group is padded. -/
def base64Encode : Bytes → Bytes
  | a :: b :: c :: t =>
    let n := a.toNat * 65536 + b.toNat * 256 + c.toNat
    base64Char (n / 262144) :: base64Char (n / 4096 % 64) :: base64Char (n / 64 % 64) ::
      base64Char (n % 64) :: base64Encode t
  | [a, b] =>
    let n := a.toNat * 1024 + b.toNat * 4
    [base64Char (n / 4096), base64Char (n / 64 % 64), base64Char (n % 64), 61]
  | [a] =>
    let n := a.toNat * 16
    [base64Char (n / 64), base64Char (n % 64), 61, 61]
  | [] => []

theorem base64Char_inj {m n : ℕ} (hm : m < 64) (hn : n < 64) (h : base64Char m = base64Char n) :
    m = n := by
  have hval : ∀ k < 64, (base64Char k).toNat = if k < 26 then 65 + k else if k < 52 then 71 + k
      else if k < 62 then k - 4 else if k = 62 then 43 else 47 := by
    intro k hk
    rw [base64Char]
    apply UInt8.toNat_ofNat_of_lt'
    rw [UInt8.size]
    split_ifs <;> omega
  have hnat := congrArg UInt8.toNat h
  rw [hval m hm, hval n hn] at hnat
  split_ifs at hnat <;> omega

/-- The padding is not one of them. -/
theorem base64Char_ne {n : ℕ} (hn : n < 64) : base64Char n ≠ 61 := by
  decide +revert

/-- A number is determined by the characters of its digits: two, three or four of them. -/
theorem base64Char_two_inj {m n : ℕ} (hm : m < 4096) (hn : n < 4096)
    (h₁ : base64Char (m / 64) = base64Char (n / 64))
    (h₂ : base64Char (m % 64) = base64Char (n % 64)) : m = n := by
  have h₁ := base64Char_inj (by omega) (by omega) h₁
  have h₂ := base64Char_inj (by omega) (by omega) h₂
  omega

theorem base64Char_three_inj {m n : ℕ} (hm : m < 262144) (hn : n < 262144)
    (h₁ : base64Char (m / 4096) = base64Char (n / 4096))
    (h₂ : base64Char (m / 64 % 64) = base64Char (n / 64 % 64))
    (h₃ : base64Char (m % 64) = base64Char (n % 64)) : m = n := by
  have hrest : m / 64 = n / 64 := by
    apply base64Char_two_inj (by omega) (by omega)
    · rw [Nat.div_div_eq_div_mul, Nat.div_div_eq_div_mul]
      exact h₁
    · exact h₂
  have hlast := base64Char_inj (by omega) (by omega) h₃
  omega

/-- Twenty-four bits, a whole group. -/
theorem base64Char_four_inj {m n : ℕ} (hm : m < 16777216) (hn : n < 16777216)
    (h₁ : base64Char (m / 262144) = base64Char (n / 262144))
    (h₂ : base64Char (m / 4096 % 64) = base64Char (n / 4096 % 64))
    (h₃ : base64Char (m / 64 % 64) = base64Char (n / 64 % 64))
    (h₄ : base64Char (m % 64) = base64Char (n % 64)) : m = n := by
  have hrest : m / 64 = n / 64 := by
    apply base64Char_three_inj (by omega) (by omega)
    · rw [Nat.div_div_eq_div_mul, Nat.div_div_eq_div_mul]
      exact h₁
    · rw [Nat.div_div_eq_div_mul, Nat.div_div_eq_div_mul]
      exact h₂
    · exact h₃
  have hlast := base64Char_inj (by omega) (by omega) h₄
  omega

/-- The groups of three bytes are read off the groups of four characters, and the padding
tells how many bytes the last group has. -/
theorem base64Encode_injective : Function.Injective base64Encode := by
  intro s
  induction s using base64Encode.induct with
  | case1 a b c s ih =>
      intro t h
      have ha := a.toNat_lt
      have hb := b.toNat_lt
      have hc := c.toNat_lt
      match t with
      | a' :: b' :: c' :: t =>
          have ha' := a'.toNat_lt
          have hb' := b'.toNat_lt
          have hc' := c'.toNat_lt
          simp only [base64Encode, List.cons.injEq] at h
          obtain ⟨h₁, h₂, h₃, h₄, hrest⟩ := h
          have hgroup := base64Char_four_inj (by omega) (by omega) h₁ h₂ h₃ h₄
          obtain rfl : a = a' := UInt8.toNat_inj.mp (by omega)
          obtain rfl : b = b' := UInt8.toNat_inj.mp (by omega)
          obtain rfl : c = c' := UInt8.toNat_inj.mp (by omega)
          rw [ih hrest]
      | [a', b'] =>
          simp only [base64Encode, List.cons.injEq] at h
          exact absurd h.2.2.2.1 (base64Char_ne (by omega))
      | [a'] =>
          simp only [base64Encode, List.cons.injEq] at h
          exact absurd h.2.2.2.1 (base64Char_ne (by omega))
      | [] => simp [base64Encode] at h
  | case2 a b =>
      intro t h
      have ha := a.toNat_lt
      have hb := b.toNat_lt
      match t with
      | a' :: b' :: c' :: t =>
          simp only [base64Encode, List.cons.injEq] at h
          exact absurd h.2.2.2.1.symm (base64Char_ne (by omega))
      | [a', b'] =>
          have ha' := a'.toNat_lt
          have hb' := b'.toNat_lt
          simp only [base64Encode, List.cons.injEq] at h
          obtain ⟨h₁, h₂, h₃, -⟩ := h
          have hgroup := base64Char_three_inj (by omega) (by omega) h₁ h₂ h₃
          obtain rfl : a = a' := UInt8.toNat_inj.mp (by omega)
          obtain rfl : b = b' := UInt8.toNat_inj.mp (by omega)
          rfl
      | [a'] =>
          simp only [base64Encode, List.cons.injEq] at h
          exact absurd h.2.2.1 (base64Char_ne (by omega))
      | [] => simp [base64Encode] at h
  | case3 a =>
      intro t h
      have ha := a.toNat_lt
      match t with
      | a' :: b' :: c' :: t =>
          simp only [base64Encode, List.cons.injEq] at h
          exact absurd h.2.2.1.symm (base64Char_ne (by omega))
      | [a', b'] =>
          simp only [base64Encode, List.cons.injEq] at h
          exact absurd h.2.2.1.symm (base64Char_ne (by omega))
      | [a'] =>
          have ha' := a'.toNat_lt
          simp only [base64Encode, List.cons.injEq] at h
          obtain ⟨h₁, h₂, -⟩ := h
          have hgroup := base64Char_two_inj (by omega) (by omega) h₁ h₂
          obtain rfl : a = a' := UInt8.toNat_inj.mp (by omega)
          rfl
      | [] => simp [base64Encode] at h
  | case4 =>
      intro t h
      match t with
      | _ :: _ :: _ :: _ => simp [base64Encode] at h
      | [_, _] => simp [base64Encode] at h
      | [_] => simp [base64Encode] at h
      | [] => rfl

/-! ## Hexadecimal text -/

/-- The digits of `Botan::hex_encode`, which are upper case. -/
def upperHexDigit (n : ℕ) : UInt8 := UInt8.ofNat (if n < 10 then 48 + n else 55 + n)

/-- `Botan::hex_encode`. -/
def hexEncode (b : Bytes) : Bytes :=
  b.flatMap fun x => [upperHexDigit (x.toNat / 16), upperHexDigit (x.toNat % 16)]

theorem upperHexDigit_inj {m n : ℕ} (hm : m < 16) (hn : n < 16)
    (h : upperHexDigit m = upperHexDigit n) : m = n := by
  have hall : ∀ a b : Fin 16, upperHexDigit a = upperHexDigit b → a = b := by decide
  exact Fin.val_eq_of_eq (hall ⟨m, hm⟩ ⟨n, hn⟩ h)

/-- The bytes are read off the pairs of digits. -/
theorem hexEncode_injective : Function.Injective hexEncode := by
  intro s
  induction s with
  | nil =>
      intro t h
      cases t with
      | nil => rfl
      | cons y t => simp [hexEncode] at h
  | cons x s ih =>
      intro t h
      cases t with
      | nil => simp [hexEncode] at h
      | cons y t =>
          have hx := x.toNat_lt
          have hy := y.toNat_lt
          simp only [hexEncode, List.flatMap_cons, List.cons_append, List.nil_append,
            List.cons.injEq] at h
          obtain ⟨hhi, hlo, hrest⟩ := h
          have hdiv := upperHexDigit_inj (by omega) (by omega) hhi
          have hmod := upperHexDigit_inj (by omega) (by omega) hlo
          obtain rfl : x = y := UInt8.toNat_inj.mp (by omega)
          rw [ih hrest]

/-! ## The platform -/

/-- The reference platform. -/
def platform : Platform where
  makeAddressV4 := makeAddressV4
  makeAddressV6 := makeAddressV6
  toStringV4 := toStringV4
  toStringV6 := toStringV6
  makeNetworkV4 := makeNetwork makeAddressV4
  makeNetworkV6 := makeNetwork makeAddressV6
  parseDocument := parseDocument
  regexValid := balanced 0
  regexSearch := fun pattern subject => subject.tails.any fun t => pattern.isPrefixOf t
  base64Encode := base64Encode
  systemMessage := fun _ => "Unknown error"

/-- The alphabet is that of the platform. -/
theorem isBase64Char_base64Char {n : ℕ} (h : n < 64) :
    Platform.isBase64Char (base64Char n) = true := by
  decide +revert

/-- Characters of the alphabet, and at most two of padding. -/
theorem platform_base64Text : platform.Base64Text := by
  intro b hb
  show ∃ body k, base64Encode b = body ++ List.replicate k 61 ∧ _
  fun_induction base64Encode b with
  | case1 a b c t n ih =>
      have ha := a.toNat_lt
      have hb' := b.toNat_lt
      have hc := c.toNat_lt
      have hfour : ∀ x ∈ [base64Char (n / 262144), base64Char (n / 4096 % 64),
          base64Char (n / 64 % 64), base64Char (n % 64)], Platform.isBase64Char x = true := by
        intro x hx
        simp only [List.mem_cons, List.not_mem_nil, or_false] at hx
        rcases hx with rfl | rfl | rfl | rfl <;>
          exact isBase64Char_base64Char (by omega)
      by_cases ht : t = []
      · subst ht
        exact ⟨_, 0, by simp [base64Encode], by simp, hfour, by omega⟩
      · obtain ⟨body, k, hbody, -, hchars, hk⟩ := ih ht
        refine ⟨[base64Char (n / 262144), base64Char (n / 4096 % 64), base64Char (n / 64 % 64),
          base64Char (n % 64)] ++ body, k, ?_, by simp, fun x hx => ?_, hk⟩
        · rw [hbody]
          rfl
        · exact (List.mem_append.mp hx).elim (hfour x) (hchars x)
  | case2 a b n =>
      have ha := a.toNat_lt
      have hb' := b.toNat_lt
      refine ⟨[base64Char (n / 4096), base64Char (n / 64 % 64), base64Char (n % 64)], 1, rfl,
        by simp, ?_, by omega⟩
      intro x hx
      simp only [List.mem_cons, List.not_mem_nil, or_false] at hx
      rcases hx with rfl | rfl | rfl <;> exact isBase64Char_base64Char (by omega)
  | case3 a n =>
      have ha := a.toNat_lt
      refine ⟨[base64Char (n / 64), base64Char (n % 64)], 2, rfl, by simp, ?_, by omega⟩
      intro x hx
      simp only [List.mem_cons, List.not_mem_nil, or_false] at hx
      rcases hx with rfl | rfl <;> exact isBase64Char_base64Char (by omega)
  | case4 => exact absurd rfl hb

/-- A last group of two digits is not one of the four-digit groups of the reference text. -/
theorem platform_groupText : platform.GroupText := by
  intro text a _ _
  show makeAddressV6 (text ++ lit ":80") ≠ some a
  have hsplit : (text ++ lit ":80").splitOn 58 = text.splitOn 58 ++ [lit "80"] :=
    List.splitOn_append_cons_self text (lit "80")
  have hnone : (text.splitOn 58 ++ [lit "80"]).mapM group? = none := by
    rw [List.mapM_append]
    cases (text.splitOn 58).mapM group? <;> rfl
  rw [makeAddressV6, hsplit, hnone]
  simp

/-- The reference platform reads addresses back. -/
theorem platform_addressText : platform.AddressText where
  v4 := makeAddressV4_toStringV4
  v6 := makeAddressV6_toStringV6
  v4_nil := by decide
  v6_nil := by decide

/-! ## Ciphers -/

/-- A byte that depends on all bytes of a text. -/
def mix (seed : ℕ) (data : Bytes) : UInt8 :=
  data.foldl (fun acc b => acc * 31 + b) (UInt8.ofNat seed)

/-- A text of the given length that depends on all bytes of another. -/
def expand (n : ℕ) (data : Bytes) : Bytes := (List.range n).map fun i => mix i data

/-- Every byte is masked by the key, the nonce and its position. -/
def mask (key nonce x : Bytes) : Bytes := x.mapIdx fun i b => b ^^^ mix i (key ++ nonce)

/-- What is masked twice is as it was. -/
theorem mask_mask (key nonce x : Bytes) : mask key nonce (mask key nonce x) = x := by
  unfold mask
  apply List.ext_getElem
  · simp
  · intro i h₁ h₂
    simp only [List.getElem_mapIdx]
    rw [UInt8.xor_assoc, UInt8.xor_self, UInt8.xor_zero]

/-- The reference ciphers. -/
def crypto : Crypto where
  md5 := fun data => ⟨expand 16 data, by simp [expand]⟩
  hkdf := fun n secret salt label => expand n (secret ++ salt ++ label)
  encrypt := fun _ => mask
  decrypt := fun _ => mask
  tag := fun _ key nonce x => expand 16 (key ++ nonce ++ x)

/-- The reference ciphers decrypt what they have encrypted. -/
theorem crypto_sound : crypto.Sound where
  length_encrypt := by simp [crypto, mask]
  decrypt_encrypt := fun _ => mask_mask
  length_tag := by simp [crypto, expand]

/-! ## MD5 -/

/-- The constants of the rounds. -/
def md5Table : List UInt32 :=
  [0xd76aa478, 0xe8c7b756, 0x242070db, 0xc1bdceee, 0xf57c0faf, 0x4787c62a, 0xa8304613, 0xfd469501,
    0x698098d8, 0x8b44f7af, 0xffff5bb1, 0x895cd7be, 0x6b901122, 0xfd987193, 0xa679438e, 0x49b40821,
    0xf61e2562, 0xc040b340, 0x265e5a51, 0xe9b6c7aa, 0xd62f105d, 0x02441453, 0xd8a1e681, 0xe7d3fbc8,
    0x21e1cde6, 0xc33707d6, 0xf4d50d87, 0x455a14ed, 0xa9e3e905, 0xfcefa3f8, 0x676f02d9, 0x8d2a4c8a,
    0xfffa3942, 0x8771f681, 0x6d9d6122, 0xfde5380c, 0xa4beea44, 0x4bdecfa9, 0xf6bb4b60, 0xbebfbc70,
    0x289b7ec6, 0xeaa127fa, 0xd4ef3085, 0x04881d05, 0xd9d4d039, 0xe6db99e5, 0x1fa27cf8, 0xc4ac5665,
    0xf4292244, 0x432aff97, 0xab9423a7, 0xfc93a039, 0x655b59c3, 0x8f0ccc92, 0xffeff47d, 0x85845dd1,
    0x6fa87e4f, 0xfe2ce6e0, 0xa3014314, 0x4e0811a1, 0xf7537e82, 0xbd3af235, 0x2ad7d2bb, 0xeb86d391]

/-- How far a round rotates. -/
def md5Shift (i : ℕ) : UInt32 :=
  [7, 12, 17, 22, 5, 9, 14, 20, 4, 11, 16, 23, 6, 10, 15, 21].getD (i / 16 * 4 + i % 4) 0

/-- The four words of the state. -/
structure Md5State where
  a : UInt32
  b : UInt32
  c : UInt32
  d : UInt32

/-- One of the 64 rounds on a block of sixteen words. -/
def Md5State.round (block : List UInt32) (s : Md5State) (i : ℕ) : Md5State :=
  let (f, g) :=
    if i < 16 then (s.b &&& s.c ||| ~~~s.b &&& s.d, i)
    else if i < 32 then (s.d &&& s.b ||| ~~~s.d &&& s.c, (5 * i + 1) % 16)
    else if i < 48 then (s.b ^^^ s.c ^^^ s.d, (3 * i + 5) % 16)
    else (s.c ^^^ (s.b ||| ~~~s.d), 7 * i % 16)
  let x := s.a + f + md5Table.getD i 0 + block.getD g 0
  let n := md5Shift i
  ⟨s.d, s.b + (x <<< n ||| x >>> (32 - n)), s.b, s.c⟩

/-- All rounds on one block. -/
def Md5State.update (s : Md5State) (block : List UInt32) : Md5State :=
  let t := (List.range 64).foldl (Md5State.round block) s
  ⟨s.a + t.a, s.b + t.b, s.c + t.c, s.d + t.d⟩

/-- The words of a text, in little-endian order. -/
def littleWords : Bytes → List UInt32
  | a :: b :: c :: d :: t =>
    (a.toUInt32 ||| b.toUInt32 <<< 8 ||| c.toUInt32 <<< 16 ||| d.toUInt32 <<< 24) :: littleWords t
  | _ => []

def littleBytes (x : UInt32) : Bytes :=
  [x.toUInt8, (x >>> 8).toUInt8, (x >>> 16).toUInt8, (x >>> 24).toUInt8]

/-- A text with the bit behind it, zeros, and its length in bits. -/
def md5Pad (data : Bytes) : Bytes :=
  data ++ (0x80 :: List.replicate ((119 - data.length % 64) % 64) 0 : Bytes)
    ++ (List.range 8).map fun i => UInt8.ofNat ((8 * data.length) >>> (8 * i))

/-- The blocks of a padded text. -/
def md5Blocks : ℕ → List UInt32 → Md5State → Md5State
  | 0, _, s => s
  | n + 1, words, s => md5Blocks n (words.drop 16) (s.update (words.take 16))

/-- The bytes of the state. -/
def Md5State.bytes (s : Md5State) : Bytes :=
  littleBytes s.a ++ littleBytes s.b ++ littleBytes s.c ++ littleBytes s.d

theorem Md5State.length_bytes (s : Md5State) : s.bytes.length = 16 := rfl

/-- `MD5`. -/
def md5 (data : Bytes) : { d : Bytes // d.length = 16 } :=
  let words := littleWords (md5Pad data)
  let s := md5Blocks (words.length / 16) words ⟨0x67452301, 0xefcdab89, 0x98badcfe, 0x10325476⟩
  ⟨s.bytes, s.length_bytes⟩

end Pichi.Reference
