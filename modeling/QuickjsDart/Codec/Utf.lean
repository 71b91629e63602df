import Mathlib

/-!
# UTF-16 and UTF-8

A string is a list of UTF-16 code units, as both ends of the bridge store it; a C buffer is a list
of bytes. `codePoints` reads the units, keeping an unpaired surrogate as a code point of its own,
and `ofCodePoints` writes them back. `encode` writes a code point as UTF-8, an unpaired surrogate
included (the generalised encoding), and `decode` reads UTF-8 strictly: overlong forms, surrogates
and code points above `U+10FFFF` are refused.

`decode_encodeAll` is the round trip, `decode_eq_none_of_surrogate` its failure on an unpaired
surrogate, and `takeWhile_encodeAll` says what reading up to the first zero byte keeps.
-/

namespace Codec

/-- A string as its UTF-16 code units. -/
abbrev Utf16 := List UInt16

/-- A buffer as its bytes. -/
abbrev Bytes := List UInt8

/-! ## Code points -/

/-- A high (leading) surrogate. -/
def IsHigh (u : UInt16) : Prop := 0xD800 ≤ u.toNat ∧ u.toNat < 0xDC00

/-- A low (trailing) surrogate. -/
def IsLow (u : UInt16) : Prop := 0xDC00 ≤ u.toNat ∧ u.toNat < 0xE000

instance (u : UInt16) : Decidable (IsHigh u) := inferInstanceAs (Decidable (_ ∧ _))
instance (u : UInt16) : Decidable (IsLow u) := inferInstanceAs (Decidable (_ ∧ _))

/-- The code point of a surrogate pair. -/
def pair (hi lo : UInt16) : Nat := 0x10000 + (hi.toNat - 0xD800) * 0x400 + (lo.toNat - 0xDC00)

/-- The code points of a string. An unpaired surrogate is kept as it is. -/
def codePoints : Utf16 → List Nat
  | [] => []
  | [u] => [u.toNat]
  | u :: v :: rest =>
    if IsHigh u ∧ IsLow v then pair u v :: codePoints rest
    else u.toNat :: codePoints (v :: rest)

/-- The code units of one code point. -/
def units (c : Nat) : Utf16 :=
  if c < 0x10000 then [UInt16.ofNat c]
  else [UInt16.ofNat (0xD800 + (c - 0x10000) / 0x400),
    UInt16.ofNat (0xDC00 + (c - 0x10000) % 0x400)]

/-- The code units of a list of code points. -/
def ofCodePoints (cs : List Nat) : Utf16 := cs.flatMap units

/-- A surrogate code point, which no character has. -/
def Surrogate (c : Nat) : Prop := 0xD800 ≤ c ∧ c < 0xE000

instance (c : Nat) : Decidable (Surrogate c) := inferInstanceAs (Decidable (_ ∧ _))

/-- A Unicode scalar value: the code point of a character. -/
def Scalar (c : Nat) : Prop := c < 0x110000 ∧ ¬ Surrogate c

instance (c : Nat) : Decidable (Scalar c) := inferInstanceAs (Decidable (_ ∧ _))

/-- A string without unpaired surrogates. -/
def WellFormed (s : Utf16) : Prop := ∀ c ∈ codePoints s, Scalar c

instance (s : Utf16) : Decidable (WellFormed s) := inferInstanceAs (Decidable (∀ c ∈ _, _))

/-- No unit, no character. -/
@[simp] theorem codePoints_nil : codePoints [] = [] := rfl

/-- No character, no unit. -/
@[simp] theorem ofCodePoints_nil : ofCodePoints [] = [] := rfl

/-- The units of the first character, then the rest. -/
@[simp] theorem ofCodePoints_cons (c : Nat) (cs : List Nat) :
    ofCodePoints (c :: cs) = units c ++ ofCodePoints cs := rfl

/-- Characters become units part by part. -/
theorem ofCodePoints_append (cs ds : List Nat) :
    ofCodePoints (cs ++ ds) = ofCodePoints cs ++ ofCodePoints ds := by
  simp [ofCodePoints]

/-- The units of a surrogate pair's code point are the pair. -/
theorem units_pair {u v : UInt16} (hu : IsHigh u) (hv : IsLow v) : units (pair u v) = [u, v] := by
  obtain ⟨hu₁, hu₂⟩ := hu
  obtain ⟨hv₁, hv₂⟩ := hv
  have hge : ¬ pair u v < 0x10000 := by unfold pair; omega
  have hq : (pair u v - 0x10000) / 0x400 = u.toNat - 0xD800 := by unfold pair; omega
  have hr : (pair u v - 0x10000) % 0x400 = v.toNat - 0xDC00 := by unfold pair; omega
  rw [units, if_neg hge, hq, hr, show 0xD800 + (u.toNat - 0xD800) = u.toNat by omega,
    show 0xDC00 + (v.toNat - 0xDC00) = v.toNat by omega, UInt16.ofNat_toNat, UInt16.ofNat_toNat]

/-- The units of a single code unit's value are that unit. -/
theorem units_toNat (u : UInt16) : units u.toNat = [u] := by
  rw [units, if_pos (by have := u.toNat_lt; omega), UInt16.ofNat_toNat]

/-- Writing back what was read gives the string, well formed or not. -/
@[simp] theorem ofCodePoints_codePoints (s : Utf16) : ofCodePoints (codePoints s) = s := by
  induction s using codePoints.induct with
  | case1 => rfl
  | case2 u => simp [codePoints, units_toNat]
  | case3 u v rest h ih => rw [codePoints, if_pos h, ofCodePoints_cons, units_pair h.1 h.2, ih]; rfl
  | case4 u v rest h ih => rw [codePoints, if_neg h, ofCodePoints_cons, units_toNat, ih]; rfl

/-- Every code point read is below `U+110000`. -/
theorem codePoints_lt (s : Utf16) : ∀ c ∈ codePoints s, c < 0x110000 := by
  induction s using codePoints.induct with
  | case1 => simp
  | case2 u =>
    rintro c hc
    have := u.toNat_lt
    rw [List.mem_singleton.1 hc]
    omega
  | case3 u v rest h ih =>
    rw [codePoints, if_pos h]
    refine List.forall_mem_cons.2 ⟨?_, ih⟩
    obtain ⟨⟨_, _⟩, _, _⟩ := h
    unfold pair
    omega
  | case4 u v rest h ih =>
    rw [codePoints, if_neg h]
    refine List.forall_mem_cons.2 ⟨?_, ih⟩
    have := u.toNat_lt
    omega

/-- A unit's value is zero for the zero unit only. -/
theorem zero_eq_toNat_iff (u : UInt16) : 0 = u.toNat ↔ 0 = u := by
  rw [← UInt16.toNat_inj, UInt16.toNat_zero]

/-- `U+0000` is read from a zero unit, and from nothing else. -/
theorem zero_mem_codePoints {s : Utf16} : 0 ∈ codePoints s ↔ 0 ∈ s := by
  induction s using codePoints.induct with
  | case1 => simp
  | case2 u => rw [codePoints, List.mem_singleton, List.mem_singleton, zero_eq_toNat_iff]
  | case3 u v rest h ih =>
    -- neither half of a pair is zero, nor is the pair's code point
    have hp : ¬ 0 = pair u v := by unfold pair; omega
    have hu : ¬ 0 = u := fun he => by
      have := h.1.1
      rw [← he, UInt16.toNat_zero] at this
      omega
    have hv : ¬ 0 = v := fun he => by
      have := h.2.1
      rw [← he, UInt16.toNat_zero] at this
      omega
    rw [codePoints, if_pos h, List.mem_cons, List.mem_cons, List.mem_cons, ih]
    exact ⟨fun hm => .inr (.inr (hm.resolve_left hp)),
      fun hm => .inr ((hm.resolve_left hu).resolve_left hv)⟩
  | case4 u v rest h ih =>
    rw [codePoints, if_neg h, List.mem_cons, List.mem_cons, ih, zero_eq_toNat_iff]

/-- The text before the first `U+0000` is the units before the first zero unit. -/
theorem ofCodePoints_takeWhile (s : Utf16) :
    ofCodePoints ((codePoints s).takeWhile (· ≠ 0)) = s.takeWhile (· ≠ 0) := by
  induction s using codePoints.induct with
  | case1 => rfl
  | case2 u =>
    by_cases hu : u = 0
    · subst hu
      rfl
    · have hn : u.toNat ≠ 0 := fun he => hu ((zero_eq_toNat_iff u).1 he.symm).symm
      simp [codePoints, hu, hn, ofCodePoints, units_toNat]
  | case3 u v rest h ih =>
    have hp : pair u v ≠ 0 := by unfold pair; omega
    have hu : u ≠ 0 := by
      rintro rfl
      exact absurd h.1 (by decide)
    have hv : v ≠ 0 := by
      rintro rfl
      exact absurd h.2 (by decide)
    rw [codePoints, if_pos h, List.takeWhile_cons_of_pos (by simpa using hp), ofCodePoints_cons, ih,
      units_pair h.1 h.2, List.takeWhile_cons_of_pos (by simpa using hu),
      List.takeWhile_cons_of_pos (by simpa using hv)]
    rfl
  | case4 u v rest h ih =>
    rw [codePoints, if_neg h]
    by_cases hu : u = 0
    · subst hu
      rfl
    · have hn : u.toNat ≠ 0 := fun he => hu ((zero_eq_toNat_iff u).1 he.symm).symm
      have hkeep : (u :: v :: rest).takeWhile (· ≠ 0) = u :: (v :: rest).takeWhile (· ≠ 0) :=
        List.takeWhile_cons_of_pos (by simpa using hu)
      rw [List.takeWhile_cons_of_pos (by simpa using hn), ofCodePoints_cons, ih, units_toNat, hkeep]
      rfl

/-- A byte-order mark is the first character exactly when it is the first unit. -/
theorem head?_codePoints_eq_bom {s : Utf16} :
    (codePoints s).head? = some 0xFEFF ↔ s.head? = some 0xFEFF := by
  have hval : ∀ u : UInt16, u.toNat = 0xFEFF ↔ u = 0xFEFF := fun u => by
    rw [← UInt16.toNat_inj]
    rfl
  induction s using codePoints.induct with
  | case1 => simp
  | case2 u => simp only [codePoints, List.head?_cons, Option.some_inj, hval]
  | case3 u v rest h ih =>
    -- a pair's code point is above the mark, and its first unit below
    rw [codePoints, if_pos h, List.head?_cons, List.head?_cons, Option.some_inj, Option.some_inj,
      ← hval]
    obtain ⟨⟨_, _⟩, _, _⟩ := h
    refine ⟨fun he => ?_, fun he => ?_⟩
    · unfold pair at he
      omega
    · omega
  | case4 u v rest h ih =>
    rw [codePoints, if_neg h, List.head?_cons, List.head?_cons, Option.some_inj, Option.some_inj,
      hval]

/-- A unit that is no high surrogate stands for itself, whatever follows. -/
theorem codePoints_cons_of_not_high {u : UInt16} (h : ¬ IsHigh u) (s : Utf16) :
    codePoints (u :: s) = u.toNat :: codePoints s := by
  cases s with
  | nil => rfl
  | cons v rest => rw [codePoints, if_neg (fun hc => h hc.1)]

/-- Reading a scalar's units gives it back, whatever follows. -/
theorem codePoints_units_append {c : Nat} (h : Scalar c) (s : Utf16) :
    codePoints (units c ++ s) = c :: codePoints s := by
  obtain ⟨hlt, hns⟩ := h
  unfold Surrogate at hns
  unfold units
  split
  · next hc =>
    have hn : (UInt16.ofNat c).toNat = c := by rw [UInt16.toNat_ofNat']; omega
    rw [List.singleton_append, codePoints_cons_of_not_high (by unfold IsHigh; omega), hn]
  · next hc =>
    have h₁ : (UInt16.ofNat (0xD800 + (c - 0x10000) / 0x400)).toNat
        = 0xD800 + (c - 0x10000) / 0x400 := by rw [UInt16.toNat_ofNat']; omega
    have h₂ : (UInt16.ofNat (0xDC00 + (c - 0x10000) % 0x400)).toNat
        = 0xDC00 + (c - 0x10000) % 0x400 := by rw [UInt16.toNat_ofNat']; omega
    generalize UInt16.ofNat (0xD800 + (c - 0x10000) / 0x400) = hi at h₁
    generalize UInt16.ofNat (0xDC00 + (c - 0x10000) % 0x400) = lo at h₂
    have hp : pair hi lo = c := by unfold pair; omega
    have hhi : IsHigh hi := by unfold IsHigh; omega
    have hlo : IsLow lo := by unfold IsLow; omega
    rw [List.cons_append, List.singleton_append, codePoints, if_pos ⟨hhi, hlo⟩, hp]

/-- Reading scalars back. -/
theorem codePoints_ofCodePoints {cs : List Nat} (h : ∀ c ∈ cs, Scalar c) :
    codePoints (ofCodePoints cs) = cs := by
  induction cs with
  | nil => rfl
  | cons c cs ih =>
    rw [ofCodePoints_cons, codePoints_units_append (h c (by simp)),
      ih fun d hd => h d (by simp [hd])]

/-- What scalars write is well formed. -/
theorem wellFormed_ofCodePoints {cs : List Nat} (h : ∀ c ∈ cs, Scalar c) :
    WellFormed (ofCodePoints cs) := by
  unfold WellFormed
  rwa [codePoints_ofCodePoints h]

/-- The text before the first `U+0000` of a well-formed string is well formed. -/
theorem WellFormed.takeWhile {s : Utf16} (h : WellFormed s) : WellFormed (s.takeWhile (· ≠ 0)) := by
  rw [← ofCodePoints_takeWhile]
  exact wellFormed_ofCodePoints fun c hc => h c (List.takeWhile_subset _ hc)

/-- A string without `U+0000` is all before it. -/
theorem takeWhile_of_zero_notMem {s : Utf16} (h₀ : 0 ∉ s) : s.takeWhile (· ≠ 0) = s := by
  refine List.takeWhile_eq_self_iff.2 fun u hu => decide_eq_true ?_
  rintro rfl
  exact h₀ hu

/-- A prefix of a well-formed string that ends before a zero unit has the code points that stand
before the first `U+0000`. -/
theorem codePoints_takeWhile {s : Utf16} (h : WellFormed s) :
    codePoints (s.takeWhile (· ≠ 0)) = (codePoints s).takeWhile (· ≠ 0) := by
  rw [← ofCodePoints_takeWhile]
  exact codePoints_ofCodePoints fun c hc => h c (List.takeWhile_subset _ hc)

/-! ## UTF-8 -/

/-- The UTF-8 bytes of a code point; a surrogate takes the three bytes of its range. -/
def encode (c : Nat) : Bytes :=
  if c < 0x80 then [UInt8.ofNat c]
  else if c < 0x800 then [UInt8.ofNat (0xC0 + c / 0x40), UInt8.ofNat (0x80 + c % 0x40)]
  else if c < 0x10000 then
    [UInt8.ofNat (0xE0 + c / 0x1000), UInt8.ofNat (0x80 + c / 0x40 % 0x40),
      UInt8.ofNat (0x80 + c % 0x40)]
  else
    [UInt8.ofNat (0xF0 + c / 0x40000), UInt8.ofNat (0x80 + c / 0x1000 % 0x40),
      UInt8.ofNat (0x80 + c / 0x40 % 0x40), UInt8.ofNat (0x80 + c % 0x40)]

/-- The UTF-8 bytes of a list of code points. -/
def encodeAll (cs : List Nat) : Bytes := cs.flatMap encode

/-- A continuation byte. -/
def IsCont (b : UInt8) : Prop := 0x80 ≤ b.toNat ∧ b.toNat < 0xC0

instance (b : UInt8) : Decidable (IsCont b) := inferInstanceAs (Decidable (_ ∧ _))

/-- The six payload bits of a continuation byte. -/
def payload (b : UInt8) : Nat := b.toNat - 0x80

/-- One character at the head of a buffer, read strictly. -/
def decodeChar : Bytes → Option (Nat × Bytes)
  | [] => none
  | a :: rest =>
    if a.toNat < 0x80 then some (a.toNat, rest)
    else if a.toNat < 0xC2 then none
    else if a.toNat < 0xE0 then
      match rest with
      | b :: rest => if IsCont b then some ((a.toNat - 0xC0) * 0x40 + payload b, rest) else none
      | _ => none
    else if a.toNat < 0xF0 then
      match rest with
      | b :: c :: rest =>
        let n := (a.toNat - 0xE0) * 0x1000 + payload b * 0x40 + payload c
        if IsCont b ∧ IsCont c ∧ 0x800 ≤ n ∧ ¬ Surrogate n then some (n, rest) else none
      | _ => none
    else if a.toNat < 0xF5 then
      match rest with
      | b :: c :: d :: rest =>
        let n := (a.toNat - 0xF0) * 0x40000 + payload b * 0x1000 + payload c * 0x40 + payload d
        if IsCont b ∧ IsCont c ∧ IsCont d ∧ 0x10000 ≤ n ∧ n < 0x110000 then some (n, rest)
        else none
      | _ => none
    else none

/-- The strict decoder, reading at most `fuel` characters. -/
def decodeFuel : Nat → Bytes → Option (List Nat)
  | _, [] => some []
  | 0, _ :: _ => none
  | fuel + 1, bs =>
    match decodeChar bs with
    | none => none
    | some (c, rest) => (decodeFuel fuel rest).map (c :: ·)

/-- The characters of a buffer of UTF-8, or none when it is malformed. A character takes at least
one byte, so the buffer's length bounds their number. -/
def decode (bs : Bytes) : Option (List Nat) := decodeFuel bs.length bs

/-- No character, no byte. -/
@[simp] theorem encodeAll_nil : encodeAll [] = [] := rfl

/-- The bytes of the first character, then the rest. -/
@[simp] theorem encodeAll_cons (c : Nat) (cs : List Nat) :
    encodeAll (c :: cs) = encode c ++ encodeAll cs := rfl

/-- A code point takes at least one byte. -/
theorem encode_length_pos (c : Nat) : 0 < (encode c).length := by
  unfold encode; split_ifs <;> simp

/-- A value below 256 is the byte's value. -/
theorem toNat_byte {n : Nat} (h : n < 0x100) : (UInt8.ofNat n).toNat = n := by
  rw [UInt8.toNat_ofNat']; omega

/-- A two-byte sequence, read. -/
theorem decodeChar_two {a b : UInt8} {x y : Nat} (ha : a.toNat = 0xC0 + x) (hb : b.toNat = 0x80 + y)
    (hx : 2 ≤ x ∧ x < 0x20) (hy : y < 0x40) (rest : Bytes) :
    decodeChar (a :: b :: rest) = some (x * 0x40 + y, rest) := by
  have hc : IsCont b := by unfold IsCont; omega
  have hn : (a.toNat - 0xC0) * 0x40 + payload b = x * 0x40 + y := by unfold payload; omega
  rw [decodeChar, if_neg (by omega), if_neg (by omega), if_pos (by omega)]
  simp only [if_pos hc, hn]

/-- A three-byte sequence, read: overlong forms and surrogates are refused. -/
theorem decodeChar_three {a b c : UInt8} {x y z : Nat} (ha : a.toNat = 0xE0 + x)
    (hb : b.toNat = 0x80 + y) (hc : c.toNat = 0x80 + z) (hx : x < 0x10) (hy : y < 0x40)
    (hz : z < 0x40) (rest : Bytes) :
    decodeChar (a :: b :: c :: rest) =
      if 0x800 ≤ x * 0x1000 + y * 0x40 + z ∧ ¬ Surrogate (x * 0x1000 + y * 0x40 + z) then
        some (x * 0x1000 + y * 0x40 + z, rest)
      else none := by
  have hb' : IsCont b := by unfold IsCont; omega
  have hc' : IsCont c := by unfold IsCont; omega
  have hn : (a.toNat - 0xE0) * 0x1000 + payload b * 0x40 + payload c
      = x * 0x1000 + y * 0x40 + z := by unfold payload; omega
  rw [decodeChar, if_neg (by omega), if_neg (by omega), if_neg (by omega), if_pos (by omega)]
  simp only [hb', hc', hn, true_and]

/-- A four-byte sequence, read. -/
theorem decodeChar_four {a b c d : UInt8} {x y z w : Nat} (ha : a.toNat = 0xF0 + x)
    (hb : b.toNat = 0x80 + y) (hc : c.toNat = 0x80 + z) (hd : d.toNat = 0x80 + w) (hx : x < 5)
    (hy : y < 0x40) (hz : z < 0x40) (hw : w < 0x40) (rest : Bytes)
    (hlo : 0x10000 ≤ x * 0x40000 + y * 0x1000 + z * 0x40 + w)
    (hhi : x * 0x40000 + y * 0x1000 + z * 0x40 + w < 0x110000) :
    decodeChar (a :: b :: c :: d :: rest)
      = some (x * 0x40000 + y * 0x1000 + z * 0x40 + w, rest) := by
  have hb' : IsCont b := by unfold IsCont; omega
  have hc' : IsCont c := by unfold IsCont; omega
  have hd' : IsCont d := by unfold IsCont; omega
  have hn : (a.toNat - 0xF0) * 0x40000 + payload b * 0x1000 + payload c * 0x40 + payload d
      = x * 0x40000 + y * 0x1000 + z * 0x40 + w := by unfold payload; omega
  rw [decodeChar, if_neg (by omega), if_neg (by omega), if_neg (by omega), if_neg (by omega),
    if_pos (by omega)]
  simp only [hn]
  rw [if_pos ⟨hb', hc', hd', hlo, hhi⟩]

/-- The strict decoder reads a scalar back, whatever follows. -/
theorem decodeChar_encode_append {c : Nat} (h : Scalar c) (rest : Bytes) :
    decodeChar (encode c ++ rest) = some (c, rest) := by
  obtain ⟨hlt, hns⟩ := h
  unfold encode
  split_ifs with h₁ h₂ h₃
  · simp only [List.singleton_append, decodeChar, toNat_byte (show c < 0x100 by omega), if_pos h₁]
  · have hn : c / 0x40 * 0x40 + c % 0x40 = c := by omega
    rw [List.cons_append, List.singleton_append, decodeChar_two (toNat_byte (by omega))
      (toNat_byte (by omega)) (by omega) (by omega), hn]
  · have hn : c / 0x1000 * 0x1000 + c / 0x40 % 0x40 * 0x40 + c % 0x40 = c := by omega
    rw [List.cons_append, List.cons_append, List.singleton_append,
      decodeChar_three (toNat_byte (by omega)) (toNat_byte (by omega)) (toNat_byte (by omega))
        (by omega) (by omega) (by omega), hn, if_pos ⟨by omega, hns⟩]
  · have hn : c / 0x40000 * 0x40000 + c / 0x1000 % 0x40 * 0x1000 + c / 0x40 % 0x40 * 0x40
        + c % 0x40 = c := by omega
    rw [List.cons_append, List.cons_append, List.cons_append, List.singleton_append,
      decodeChar_four (toNat_byte (by omega)) (toNat_byte (by omega)) (toNat_byte (by omega))
        (toNat_byte (by omega)) (by omega) (by omega) (by omega) (by omega) _ (by omega)
        (by omega), hn]

/-- The strict decoder refuses the three bytes of a surrogate. -/
theorem decodeChar_encode_surrogate {c : Nat} (h : Surrogate c) (rest : Bytes) :
    decodeChar (encode c ++ rest) = none := by
  have hs := h
  obtain ⟨h₁, h₂⟩ := h
  have hn : c / 0x1000 * 0x1000 + c / 0x40 % 0x40 * 0x40 + c % 0x40 = c := by omega
  rw [encode, if_neg (by omega), if_neg (by omega), if_pos (by omega), List.cons_append,
    List.cons_append, List.singleton_append,
    decodeChar_three (toNat_byte (by omega)) (toNat_byte (by omega)) (toNat_byte (by omega))
      (by omega) (by omega) (by omega), hn, if_neg (fun hc => hc.2 hs)]

/-- One step of the decoder on a nonempty buffer. -/
theorem decodeFuel_succ {bs : Bytes} (h : 0 < bs.length) (fuel : Nat) :
    decodeFuel (fuel + 1) bs =
      (decodeChar bs).bind fun p => (decodeFuel fuel p.2).map (p.1 :: ·) := by
  cases bs with
  | nil => simp at h
  | cons b bs =>
    rw [decodeFuel]
    · cases decodeChar (b :: bs) <;> rfl
    · simp

/-- The encoding of a nonempty list of code points is nonempty. -/
theorem encode_append_length_pos (c : Nat) (bs : Bytes) : 0 < (encode c ++ bs).length := by
  have := encode_length_pos c
  rw [List.length_append]
  omega

/-- The decoder reads scalars back when it has fuel for each of them. -/
theorem decodeFuel_encodeAll {cs : List Nat} (h : ∀ c ∈ cs, Scalar c) {fuel : Nat}
    (hf : cs.length ≤ fuel) : decodeFuel fuel (encodeAll cs) = some cs := by
  induction cs generalizing fuel with
  | nil => cases fuel <;> rfl
  | cons c cs ih =>
    rw [List.length_cons] at hf
    obtain ⟨n, rfl⟩ : ∃ n, fuel = n + 1 := ⟨fuel - 1, by omega⟩
    rw [encodeAll_cons, decodeFuel_succ (encode_append_length_pos c _),
      decodeChar_encode_append (h c List.mem_cons_self)]
    rw [Option.bind_some, ih (fun d hd => h d (List.mem_cons_of_mem _ hd)) (by omega)]
    rfl

/-- Every code point takes at least one byte. -/
theorem length_le_encodeAll (cs : List Nat) : cs.length ≤ (encodeAll cs).length := by
  induction cs with
  | nil => simp
  | cons c cs ih =>
    have := encode_length_pos c
    simp only [encodeAll_cons, List.length_append, List.length_cons]
    omega

/-- The UTF-8 round trip. -/
theorem decode_encodeAll {cs : List Nat} (h : ∀ c ∈ cs, Scalar c) :
    decode (encodeAll cs) = some cs :=
  decodeFuel_encodeAll h (length_le_encodeAll cs)

/-- A buffer with a surrogate in it is refused. -/
theorem decodeFuel_eq_none_of_surrogate {cs : List Nat} (hlt : ∀ c ∈ cs, c < 0x110000)
    (hs : ∃ c ∈ cs, Surrogate c) (fuel : Nat) : decodeFuel fuel (encodeAll cs) = none := by
  induction cs generalizing fuel with
  | nil =>
    obtain ⟨c, hc, -⟩ := hs
    cases hc
  | cons c cs ih =>
    cases fuel with
    | zero =>
      obtain ⟨b, bs, hb⟩ :=
        List.exists_cons_of_length_pos (encode_append_length_pos c (encodeAll cs))
      rw [encodeAll_cons, hb]
      rfl
    | succ n =>
      rw [encodeAll_cons, decodeFuel_succ (encode_append_length_pos c _)]
      by_cases hc : Surrogate c
      · rw [decodeChar_encode_surrogate hc]
        rfl
      · have hcs : ∃ d ∈ cs, Surrogate d := by
          obtain ⟨d, hd, hds⟩ := hs
          rcases List.mem_cons.1 hd with rfl | hd
          · exact absurd hds hc
          · exact ⟨d, hd, hds⟩
        rw [decodeChar_encode_append ⟨hlt c List.mem_cons_self, hc⟩, Option.bind_some,
          ih (fun d hd => hlt d (List.mem_cons_of_mem _ hd)) hcs n]
        rfl

/-- A surrogate is not decoded. -/
theorem decode_eq_none_of_surrogate {cs : List Nat} (hlt : ∀ c ∈ cs, c < 0x110000)
    (hs : ∃ c ∈ cs, Surrogate c) : decode (encodeAll cs) = none :=
  decodeFuel_eq_none_of_surrogate hlt hs _

/-! ## The two lengths of a string -/

/-- A code point takes at least as many bytes as units, and as many only below `U+0080`. -/
theorem length_units_encode (c : Nat) :
    (c < 0x80 → (units c).length = (encode c).length) ∧
      (¬ c < 0x80 → (units c).length < (encode c).length) := by
  unfold units encode
  split_ifs <;> simp_all <;> omega

/-- Bytes against units, over a list of code points. -/
theorem length_ofCodePoints_le (cs : List Nat) :
    (ofCodePoints cs).length ≤ (encodeAll cs).length := by
  induction cs with
  | nil => exact Nat.le_refl _
  | cons c cs ih =>
    have hc := length_units_encode c
    rw [ofCodePoints_cons, encodeAll_cons, List.length_append, List.length_append]
    by_cases h : c < 0x80
    · have := hc.1 h
      omega
    · have := hc.2 h
      omega

/-- The two lengths agree exactly on ASCII. -/
theorem length_ofCodePoints_eq_iff (cs : List Nat) :
    (ofCodePoints cs).length = (encodeAll cs).length ↔ ∀ c ∈ cs, c < 0x80 := by
  induction cs with
  | nil => simp
  | cons c cs ih =>
    have hc := length_units_encode c
    have hle := length_ofCodePoints_le cs
    rw [List.forall_mem_cons, ← ih, ofCodePoints_cons, encodeAll_cons, List.length_append,
      List.length_append]
    by_cases h : c < 0x80
    · have := hc.1 h
      exact ⟨fun he => ⟨h, by omega⟩, fun he => by have := he.2; omega⟩
    · have := hc.2 h
      exact ⟨fun he => by omega, fun he => absurd he.1 h⟩

/-- A string's code points are ASCII exactly when its units are. -/
theorem codePoints_ascii_iff (s : Utf16) :
    (∀ c ∈ codePoints s, c < 0x80) ↔ ∀ u ∈ s, u.toNat < 0x80 := by
  induction s using codePoints.induct with
  | case1 => simp
  | case2 u => simp only [codePoints, List.forall_mem_singleton]
  | case3 u v rest h ih =>
    have hu := h.1.1
    rw [codePoints, if_pos h, List.forall_mem_cons, List.forall_mem_cons]
    refine ⟨fun hp => absurd hp.1 ?_, fun hp => absurd hp.1 (by omega)⟩
    unfold pair
    omega
  | case4 u v rest h ih =>
    rw [codePoints, if_neg h, List.forall_mem_cons, List.forall_mem_cons, ih]

/-! ## Zero bytes -/

/-- A byte of a value between 1 and 255 is not zero. -/
theorem byte_ne_zero {n : Nat} (h₀ : 0 < n) (h : n < 0x100) : (0 : UInt8) ≠ UInt8.ofNat n := by
  intro he
  have := congrArg UInt8.toNat he
  rw [toNat_byte h, UInt8.toNat_zero] at this
  omega

/-- The encoding of a code point other than `U+0000` has no zero byte. -/
theorem zero_notMem_encode {c : Nat} (h₀ : c ≠ 0) (h : c < 0x110000) : 0 ∉ encode c := by
  unfold encode
  split_ifs <;> simp only [List.mem_cons, List.not_mem_nil, or_false, not_or]
  · exact byte_ne_zero (by omega) (by omega)
  · exact ⟨byte_ne_zero (by omega) (by omega), byte_ne_zero (by omega) (by omega)⟩
  · exact ⟨byte_ne_zero (by omega) (by omega), byte_ne_zero (by omega) (by omega),
      byte_ne_zero (by omega) (by omega)⟩
  · exact ⟨byte_ne_zero (by omega) (by omega), byte_ne_zero (by omega) (by omega),
      byte_ne_zero (by omega) (by omega), byte_ne_zero (by omega) (by omega)⟩

/-- Reading a buffer up to its first zero byte keeps the code points before the first `U+0000`: no
other code point has a zero byte in its encoding. -/
theorem takeWhile_encodeAll {cs : List Nat} (h : ∀ c ∈ cs, c < 0x110000) :
    (encodeAll cs).takeWhile (· ≠ 0) = encodeAll (cs.takeWhile (· ≠ 0)) := by
  induction cs with
  | nil => rfl
  | cons c cs ih =>
    rw [encodeAll_cons]
    by_cases hc : c = 0
    · subst hc
      rfl
    · have hne : ∀ b ∈ encode c, decide (b ≠ 0) = true := by
        intro b hb
        rw [decide_eq_true_iff]
        rintro rfl
        exact zero_notMem_encode hc (h c List.mem_cons_self) hb
      rw [List.takeWhile_append_of_pos hne, ih fun d hd => h d (List.mem_cons_of_mem _ hd),
        List.takeWhile_cons_of_pos (by simpa using hc), encodeAll_cons]

end Codec
