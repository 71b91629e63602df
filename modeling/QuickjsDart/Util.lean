import QuickjsDart.Heap

/-!
# String helpers

`toArray` and `trimQuote` of the wrapper's `util.dart`.

`toArray` reads hexadecimal text in three steps: it drops what is neither a lower-case letter nor a
digit, puts a `0` in front of an odd number of characters, and parses pair after pair. `Shows` gives
the digits of a text as a reader sees them, and `toArray_hex_iff` says when the two agree.
-/

namespace QuickjsDart

open Codec

/-! ## `toArray` -/

/-- The integers that `toArray` adds for a code unit. -/
def unitInts (c : UInt16) : List ℕ :=
  let hi := c.toNat / 0x100
  let lo := c.toNat % 0x100
  if 0 < hi then [hi, lo] else [lo]

/-- The value of a character in `int.parse` with radix sixteen, on what `toArray` keeps of a
text. -/
def hexDigit? (c : UInt16) : Option ℕ :=
  if 0x30 ≤ c.toNat ∧ c.toNat ≤ 0x39 then some (c.toNat - 0x30)
  else if 0x61 ≤ c.toNat ∧ c.toNat ≤ 0x66 then some (c.toNat - 0x61 + 10)
  else none

/-- The loop of `toArray` over pairs of characters. -/
def hexInts : Utf16 → Except DartError (List ℕ)
  | a :: b :: rest => do
    match hexDigit? a, hexDigit? b with
    | some x, some y => pure ((16 * x + y) :: (← hexInts rest))
    | _, _ => throw .formatException
  | _ => pure []

/-- The characters that `toArray` keeps of a hexadecimal text. -/
def isHexChar (c : UInt16) : Bool :=
  (0x61 ≤ c.toNat && c.toNat ≤ 0x7A) || (0x30 ≤ c.toNat && c.toNat ≤ 0x39)

/-- The encoding name `hex`. -/
def hexName : Utf16 := asciiUnits [0x68, 0x65, 0x78]

/-- `toArray`. -/
def toArray (msg : Utf16) (enc : Option Utf16) : Except DartError (List ℕ) :=
  if enc = some hexName then
    let msg := msg.filter isHexChar
    hexInts (if msg.length % 2 ≠ 0 then 0x30 :: msg else msg)
  else pure (msg.flatMap unitInts)

/-! ## `trimQuote` -/

/-- `indexOf` of a single character. -/
def indexOf (c : UInt16) (s : Utf16) : ℤ :=
  match s.findIdx? (· = c) with
  | some i => i
  | none => -1

/-- `lastIndexOf` of a single character. -/
def lastIndexOf (c : UInt16) (s : Utf16) : ℤ :=
  match s.reverse.findIdx? (· = c) with
  | some i => s.length - 1 - i
  | none => -1

/-- `substring`, or `none` for its `RangeError`. -/
def substring (s : Utf16) (start stop : ℤ) : Option Utf16 :=
  if 0 ≤ start ∧ start ≤ stop ∧ stop ≤ s.length then
    some ((s.take stop.toNat).drop start.toNat)
  else none

/-- `trimQuote`. The text without a quote has `lastIndexOf` equal to its length less one when it is
empty, and `substring(0, -1)` is a `RangeError` then. -/
def trimQuote (fdId : Utf16) : Option Utf16 := do
  let fdId ← if indexOf 0x22 fdId = 0 then substring fdId 1 fdId.length else pure fdId
  if lastIndexOf 0x22 fdId = fdId.length - 1 then substring fdId 0 (fdId.length - 1) else pure fdId

/-- A text between quotes loses them, whatever quotes it has inside. -/
theorem trimQuote_quoted (t : Utf16) : trimQuote (0x22 :: (t ++ [0x22])) = some t := by
  have hfirst : indexOf 0x22 (0x22 :: (t ++ [0x22])) = 0 := by
    rw [indexOf, List.findIdx?_cons]
    rfl
  have hrest : substring (0x22 :: (t ++ [0x22])) 1 (0x22 :: (t ++ [0x22])).length
      = some (t ++ [0x22]) := by
    rw [substring, if_pos ⟨by omega, by simp; omega, le_refl _⟩, Int.toNat_natCast,
      List.take_length]
    rfl
  have hlast : lastIndexOf 0x22 (t ++ [0x22]) = (t ++ [0x22]).length - 1 := by
    rw [lastIndexOf, List.reverse_append, List.reverse_singleton, List.singleton_append,
      List.findIdx?_cons]
    simp
  have hinit : substring (t ++ [0x22]) 0 ((t ++ [0x22]).length - 1) = some t := by
    rw [substring, if_pos ⟨by omega, by simp, by omega⟩]
    simp
  rw [trimQuote, if_pos hfirst, hrest]
  simp only [Option.bind_eq_bind, Option.bind_some]
  rw [if_pos hlast, hinit]

/-! ## Hexadecimal text -/

/-- An upper-case letter. -/
def IsUpper (u : UInt16) : Prop := 0x41 ≤ u.toNat ∧ u.toNat ≤ 0x5A

instance (u : UInt16) : Decidable (IsUpper u) := inferInstanceAs (Decidable (_ ∧ _))

/-- The value of a hexadecimal digit in either case. -/
def digitValue? (u : UInt16) : Option ℕ :=
  if 0x41 ≤ u.toNat ∧ u.toNat ≤ 0x46 then some (u.toNat - 0x41 + 10) else hexDigit? u

/-- The text `h` shows the digits `ds`: its ASCII letters and digits are theirs, in either case, and
every other character of it is a separator. -/
def Shows (h : Utf16) (ds : List ℕ) : Prop :=
  (h.filter fun u => isHexChar u || decide (IsUpper u)).map digitValue? = ds.map some

instance (h : Utf16) (ds : List ℕ) : Decidable (Shows h ds) := inferInstanceAs (Decidable (_ = _))

/-- The bytes of an even number of digits. -/
def digitBytes : List ℕ → List ℕ
  | hi :: lo :: rest => (16 * hi + lo) :: digitBytes rest
  | _ => []

/-- The two digits of each byte. -/
def byteDigits (bs : List UInt8) : List ℕ := bs.flatMap fun b => [b.toNat / 16, b.toNat % 16]

/-- The digits with a `0` in front where their number is odd. -/
def padDigits (ds : List ℕ) : List ℕ := if ds.length % 2 ≠ 0 then 0 :: ds else ds

/-- Two digits are put together to a byte. -/
theorem digitBytes_byteDigits (bs : List UInt8) :
    digitBytes (byteDigits bs) = bs.map UInt8.toNat := by
  induction bs with
  | nil => rfl
  | cons b bs ih =>
    have hb : 16 * (b.toNat / 16) + b.toNat % 16 = b.toNat := Nat.div_add_mod _ _
    rw [byteDigits, List.flatMap_cons, ← byteDigits, List.cons_append, List.singleton_append,
      digitBytes, ih, hb, List.map_cons]

/-- Bytes have an even number of digits already. -/
theorem padDigits_byteDigits (bs : List UInt8) : padDigits (byteDigits bs) = byteDigits bs := by
  have heven : (byteDigits bs).length % 2 = 0 := by
    induction bs with
    | nil => rfl
    | cons b bs ih =>
      rw [byteDigits, List.flatMap_cons, ← byteDigits, List.length_append]
      simp only [List.length_cons, List.length_nil]
      omega
  rw [padDigits, if_neg (by omega)]

/-- There is an even number of digits. -/
theorem length_padDigits (ds : List ℕ) : (padDigits ds).length % 2 = 0 := by
  unfold padDigits
  split_ifs with h
  · rw [List.length_cons]
    omega
  · omega

/-- A zero in front adds nothing. -/
theorem sum_padDigits (ds : List ℕ) : (padDigits ds).sum = ds.sum := by
  unfold padDigits
  split_ifs <;> simp

/-- A hexadecimal digit is below 16. -/
theorem digitValue?_lt {u : UInt16} {d : ℕ} (h : digitValue? u = some d) : d < 16 := by
  unfold digitValue? hexDigit? at h
  split_ifs at h <;> cases h <;> omega

/-- An upper-case digit is worth ten or more. -/
theorem digitValue?_of_upper {u : UInt16} {d : ℕ} (hu : IsUpper u) (h : digitValue? u = some d) :
    10 ≤ d := by
  unfold IsUpper at hu
  unfold digitValue? hexDigit? at h
  split_ifs at h <;> cases h <;> omega

/-- Any other digit is read by `int.parse` as what it shows. -/
theorem hexDigit?_of_not_upper {u : UInt16} (hu : ¬ IsUpper u) : hexDigit? u = digitValue? u := by
  refine (if_neg fun h => hu ⟨h.1, ?_⟩).symm
  omega

/-- The loop gives the bytes of the digits. -/
theorem hexInts_eq {t : Utf16} {ds : List ℕ} (ht : t.map hexDigit? = ds.map some)
    (heven : ds.length % 2 = 0) : hexInts t = .ok (digitBytes ds) := by
  induction ds using digitBytes.induct generalizing t with
  | case1 hi lo rest ih =>
    obtain ⟨a, t, rfl⟩ : ∃ a t', t = a :: t' := by
      cases t with
      | nil => simp at ht
      | cons a t => exact ⟨a, t, rfl⟩
    obtain ⟨b, t, rfl⟩ : ∃ b t', t = b :: t' := by
      cases t with
      | nil => simp at ht
      | cons b t => exact ⟨b, t, rfl⟩
    simp only [List.map_cons, List.cons.injEq] at ht
    obtain ⟨ha, hb, hrest⟩ := ht
    have htail : hexInts t = .ok (digitBytes rest) := by
      refine ih hrest ?_
      simp only [List.length_cons] at heven
      omega
    rw [hexInts, ha, hb, htail, digitBytes]
    rfl
  | case2 ds hshort =>
    cases ds with
    | nil =>
      obtain rfl : t = [] := by simpa using ht
      rfl
    | cons d es =>
      cases es with
      | nil => simp at heven
      | cons e rest => exact absurd rfl (hshort d e rest)

/-- The digits of the bytes add up to the digits. -/
theorem sum_digitBytes {ds : List ℕ} (h : ∀ d ∈ ds, d < 16) (heven : ds.length % 2 = 0) :
    ((digitBytes ds).map fun b => b / 16 + b % 16).sum = ds.sum := by
  induction ds using digitBytes.induct with
  | case1 hi lo rest ih =>
    have hlo : lo < 16 := h lo (by simp)
    have heven' : rest.length % 2 = 0 := by
      simp only [List.length_cons] at heven
      omega
    have htail := ih (fun d hd => h d (by simp [hd])) heven'
    rw [digitBytes, List.map_cons, List.sum_cons, htail, List.sum_cons, List.sum_cons]
    omega
  | case2 ds hshort =>
    cases ds with
    | nil => rfl
    | cons d es =>
      cases es with
      | nil => simp at heven
      | cons e rest => exact absurd rfl (hshort d e rest)

/-- What the filter keeps of a text: all of its digits, or digits with a smaller sum, since each
digit it drops is a letter. -/
theorem Shows.kept {h : Utf16} {ds : List ℕ} (hs : Shows h ds) :
    ∃ ds', (h.filter isHexChar).map hexDigit? = ds'.map some ∧ (∀ d ∈ ds', d ∈ ds) ∧
      ((∀ u ∈ h, ¬ IsUpper u) ∧ ds' = ds ∨ (∃ u ∈ h, IsUpper u) ∧ ds'.sum < ds.sum) := by
  induction h generalizing ds with
  | nil =>
    obtain rfl : ds = [] := by simpa [Shows] using hs.symm
    exact ⟨[], rfl, by simp, .inl ⟨by simp, rfl⟩⟩
  | cons u h ih =>
    unfold Shows at hs
    by_cases hsep : isHexChar u = true ∨ IsUpper u
    · rw [List.filter_cons_of_pos (by simpa using hsep), List.map_cons] at hs
      obtain ⟨d, es, rfl⟩ : ∃ d es, ds = d :: es := by
        cases ds with
        | nil => simp at hs
        | cons d es => exact ⟨d, es, rfl⟩
      rw [List.map_cons, List.cons.injEq] at hs
      obtain ⟨es', hes, hsub, hcase⟩ := ih hs.2
      by_cases hup : IsUpper u
      · have hdrop : ¬ isHexChar u = true := by
          unfold IsUpper at hup
          simp only [isHexChar, Bool.or_eq_true, Bool.and_eq_true, decide_eq_true_eq]
          omega
        have hd := digitValue?_of_upper hup hs.1
        refine ⟨es', ?_, fun e he => List.mem_cons_of_mem _ (hsub e he),
          .inr ⟨⟨u, List.mem_cons_self, hup⟩, ?_⟩⟩
        · rw [List.filter_cons_of_neg hdrop, hes]
        · rw [List.sum_cons]
          rcases hcase with ⟨-, rfl⟩ | ⟨-, hlt⟩ <;> omega
      · have hkeep : isHexChar u = true := hsep.resolve_right hup
        refine ⟨d :: es', ?_, ?_, ?_⟩
        · rw [List.filter_cons_of_pos hkeep, List.map_cons, hes, hexDigit?_of_not_upper hup, hs.1,
            List.map_cons]
        · exact List.forall_mem_cons.2 ⟨List.mem_cons_self,
            fun e he => List.mem_cons_of_mem _ (hsub e he)⟩
        · rcases hcase with ⟨hall, rfl⟩ | ⟨⟨v, hv, hvup⟩, hlt⟩
          · exact .inl ⟨List.forall_mem_cons.2 ⟨hup, hall⟩, rfl⟩
          · refine .inr ⟨⟨v, List.mem_cons_of_mem _ hv, hvup⟩, ?_⟩
            rw [List.sum_cons, List.sum_cons]
            omega
    · rw [List.filter_cons_of_neg (by simpa using hsep)] at hs
      obtain ⟨ds', hds, hsub, hcase⟩ := ih hs
      refine ⟨ds', ?_, hsub, ?_⟩
      · rw [List.filter_cons_of_neg fun hl => hsep (.inl hl), hds]
      · rcases hcase with ⟨hall, rfl⟩ | ⟨⟨v, hv, hvup⟩, hlt⟩
        · exact .inl ⟨List.forall_mem_cons.2 ⟨fun hup => hsep (.inr hup), hall⟩, rfl⟩
        · exact .inr ⟨⟨v, List.mem_cons_of_mem _ hv, hvup⟩, hlt⟩

/-- Digits that a text shows are below sixteen. -/
theorem Shows.lt {h : Utf16} {ds : List ℕ} (hs : Shows h ds) : ∀ d ∈ ds, d < 16 := by
  intro d hd
  have hmem : some d ∈ (h.filter fun u => isHexChar u || decide (IsUpper u)).map digitValue? := by
    rw [show _ = ds.map some from hs]
    exact List.mem_map_of_mem hd
  obtain ⟨u, -, hu⟩ := List.mem_map.1 hmem
  exact digitValue?_lt hu

/-- The zero in front is a digit. -/
theorem lt_of_mem_padDigits {ds : List ℕ} (h : ∀ d ∈ ds, d < 16) : ∀ d ∈ padDigits ds, d < 16 := by
  unfold padDigits
  split_ifs
  · exact List.forall_mem_cons.2 ⟨by decide, h⟩
  · exact h

/-- `toArray` gives the bytes of the digits it keeps. -/
theorem toArray_hex {h : Utf16} {ds : List ℕ}
    (hds : (h.filter isHexChar).map hexDigit? = ds.map some) :
    toArray h (some hexName) = .ok (digitBytes (padDigits ds)) := by
  have hlen : (h.filter isHexChar).length = ds.length := by
    simpa using congrArg List.length hds
  rw [toArray, if_pos rfl]
  refine hexInts_eq ?_ (length_padDigits ds)
  rw [hlen, padDigits]
  split_ifs with hodd
  · rw [List.map_cons, List.map_cons, hds]
    rfl
  · exact hds

/-- `toArray` gives the bytes that the text shows exactly when the text has no upper-case letter. -/
theorem toArray_eq_iff {h : Utf16} {ds : List ℕ} (hs : Shows h ds) :
    toArray h (some hexName) = .ok (digitBytes (padDigits ds)) ↔ ∀ u ∈ h, ¬ IsUpper u := by
  obtain ⟨ds', hds, hsub, ⟨hall, rfl⟩ | ⟨⟨u, hu, hup⟩, hlt⟩⟩ := hs.kept
  · exact ⟨fun _ => hall, fun _ => toArray_hex hds⟩
  · refine ⟨fun he => ?_, fun hall => absurd hup (hall u hu)⟩
    -- equal bytes have equal digit sums, and a dropped letter makes the sum smaller
    have hbytes : digitBytes (padDigits ds') = digitBytes (padDigits ds) :=
      Except.ok.inj ((toArray_hex hds).symm.trans he)
    have hsum' := sum_digitBytes (lt_of_mem_padDigits fun d hd => hs.lt d (hsub d hd))
      (length_padDigits ds')
    have hsum := sum_digitBytes (lt_of_mem_padDigits hs.lt) (length_padDigits ds)
    rw [sum_padDigits] at hsum hsum'
    rw [hbytes] at hsum'
    omega

/-- **Hexadecimal text.** The bytes come back from a text that shows two digits for each of them
exactly when the text has no upper-case digit; so do the bytes of an odd number of digits, with a
`0` put in front. -/
theorem toArray_hex_iff (h : Utf16) :
    (∀ bs : List UInt8, Shows h (byteDigits bs) →
        (toArray h (some hexName) = .ok (bs.map UInt8.toNat) ↔ ∀ u ∈ h, ¬ IsUpper u)) ∧
      ∀ ds : List ℕ, Shows h ds → ds.length % 2 = 1 →
        (toArray h (some hexName) = .ok (digitBytes (0 :: ds)) ↔ ∀ u ∈ h, ¬ IsUpper u) := by
  refine ⟨fun bs hs => ?_, fun ds hs hodd => ?_⟩
  · have hiff := toArray_eq_iff hs
    rwa [padDigits_byteDigits, digitBytes_byteDigits] at hiff
  · have hiff := toArray_eq_iff hs
    rwa [padDigits, if_pos (by omega)] at hiff

/-- `0a:ff` gives its two bytes, and `f` one. -/
theorem toArray_hex_lower :
    (Shows [0x30, 0x61, 0x3A, 0x66, 0x66] (byteDigits [0x0A, 0xFF]) ∧
        toArray [0x30, 0x61, 0x3A, 0x66, 0x66] (some hexName) = .ok [0x0A, 0xFF]) ∧
      Shows [0x66] [15] ∧ toArray [0x66] (some hexName) = .ok [15] := by
  have heven : Shows [0x30, 0x61, 0x3A, 0x66, 0x66] (byteDigits [0x0A, 0xFF]) := by decide
  have hodd : Shows [0x66] [15] := by decide
  have hlower : ∀ u ∈ ([0x30, 0x61, 0x3A, 0x66, 0x66] : Utf16), ¬ IsUpper u := by
    simp [IsUpper]
  have hlower' : ∀ u ∈ ([0x66] : Utf16), ¬ IsUpper u := by
    simp [IsUpper]
  exact ⟨⟨heven, ((toArray_hex_iff _).1 _ heven).2 hlower⟩,
    hodd, ((toArray_hex_iff _).2 _ hodd rfl).2 hlower'⟩

/-- In `0A1b` the digit `A` is lost, and the bytes are those of `001b`. -/
theorem toArray_hex_upper :
    Shows [0x30, 0x41, 0x31, 0x62] (byteDigits [0x0A, 0x1B]) ∧
      toArray [0x30, 0x41, 0x31, 0x62] (some hexName) = .ok [0x00, 0x1B] ∧
      toArray [0x30, 0x41, 0x31, 0x62] (some hexName) ≠ .ok ([0x0A, 0x1B].map UInt8.toNat) := by
  have hread : toArray [0x30, 0x41, 0x31, 0x62] (some hexName) = .ok [0x00, 0x1B] := rfl
  refine ⟨by decide, hread, fun h => ?_⟩
  have hbytes := Except.ok.inj (hread.symm.trans h)
  exact absurd hbytes (by decide)

end QuickjsDart
