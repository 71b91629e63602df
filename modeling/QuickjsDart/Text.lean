import QuickjsDart.Codec.Utf

/-!
# Strings across the FFI boundary

A Dart string crosses into C as a buffer written by `toUtf8`, whose length is found again by
scanning for the zero byte; a C string crosses back through `fromUtf8`. Inside QuickJS a string is
again a list of UTF-16 code units, built by `jsNewStringLen` and written out by `jsToCStringLen2`.

The two directions are `ffiString` and `dartString`: what QuickJS makes of a Dart string, and what
Dart makes of a QuickJS string. `ffiString_eq_self` and `dartString_eq_some` say when they change
nothing. `evalScript` is the one place where a length is passed along instead, and
`evalScript_wholeScript_iff` says when that length is the right one.
-/

namespace QuickjsDart

open Codec

/-! ## Buffers -/

/-- Memory as `allocate` returns it: `none` is a byte that has not been written. -/
abbrev Buffer := List (Option UInt8)

/-- `allocate<Utf8Fix>(count: n)`. -/
def allocate (count : Nat) : Buffer := List.replicate count none

/-- dart:convert's `Utf8Encoder`: an unpaired surrogate is written as `U+FFFD`. -/
def utf8Encoder (s : Utf16) : Bytes :=
  encodeAll ((codePoints s).map fun c => if Surrogate c then 0xFFFD else c)

/-- dart:convert's `Utf8Decoder`: malformed input is a `FormatException`, and a byte-order mark in
front is discarded. -/
def utf8Decoder (bs : Bytes) : Option Utf16 :=
  (decode bs).map fun cs => ofCodePoints (if cs.head? = some 0xFEFF then cs.tail else cs)

/-- The loop of `toUtf8`: write the units from index `i` on. -/
def writeUnits (ptr : Buffer) (i : Nat) : Bytes → Buffer
  | [] => ptr
  | u :: us => writeUnits (ptr.set i (some u)) (i + 1) us

/-- `Utf8Fix.toUtf8`. -/
def toUtf8 (s : Utf16) : Buffer :=
  let units := utf8Encoder s
  let ptr := writeUnits (allocate (units.length + 1)) 0 units
  ptr.set units.length (some 0)

/-- The scan of `fromUtf8`, and of C's `strlen`: the bytes before the first zero byte. It has no
value when the scan meets a byte that was never written or leaves the allocation. -/
def scanUnits : Buffer → Option Bytes
  | [] => none
  | none :: _ => none
  | some b :: rest => if b = 0 then some [] else (scanUnits rest).map (b :: ·)

/-- `Utf8Fix.fromUtf8`, with no value when the scan has none or the bytes are malformed. -/
def fromUtf8 (ptr : Buffer) : Option Utf16 := (scanUnits ptr).bind utf8Decoder

/-- The units written before index `i` stay, and the loop goes on behind them. -/
theorem writeUnits_append (done us : Bytes) (k : Nat) :
    writeUnits (done.map some ++ List.replicate (us.length + k) none) done.length us
      = (done ++ us).map some ++ List.replicate k none := by
  induction us generalizing done with
  | nil => simp [writeUnits]
  | cons u us ih =>
    have hset : (done.map some ++ List.replicate (us.length + 1 + k) none).set done.length (some u)
        = (done ++ [u]).map some ++ List.replicate (us.length + k) none := by
      rw [Nat.add_right_comm, List.replicate_succ]
      simp
    have hlen : (done ++ [u]).length = done.length + 1 := by simp
    rw [writeUnits, List.length_cons, hset, ← hlen, ih (done ++ [u])]
    simp

/-- Every byte of the allocation is written: the encoding, then the terminator. -/
theorem toUtf8_eq (s : Utf16) : toUtf8 s = (utf8Encoder s ++ [0]).map some := by
  have hloop := writeUnits_append [] (utf8Encoder s) 1
  simp only [List.map_nil, List.nil_append, List.length_nil, List.replicate_one] at hloop
  simp only [toUtf8, allocate, hloop]
  simp

/-- The scan of a terminated buffer gives the bytes before the first zero. -/
theorem scanUnits_terminated (bs : Bytes) :
    scanUnits ((bs ++ [0]).map some) = some (bs.takeWhile (· ≠ 0)) := by
  induction bs with
  | nil => rfl
  | cons b bs ih =>
    rw [List.cons_append, List.map_cons, scanUnits, ih]
    by_cases hb : b = 0 <;> simp [hb]

/-- A buffer all of whose bytes are written, read. -/
theorem mapM_id_map_some (bs : Bytes) : (bs.map some).mapM id = some bs := by
  induction bs with
  | nil => rfl
  | cons b bs ih => simp [List.mapM_cons, ih]

/-- A string without the byte-order mark in front that `Utf8Decoder` discards. -/
def dropBom (s : Utf16) : Utf16 := if s.head? = some 0xFEFF then s.tail else s

/-- The decoder undoes the encoder, a byte-order mark in front apart. -/
theorem utf8Decoder_encodeAll {s : Utf16} (h : WellFormed s) :
    utf8Decoder (encodeAll (codePoints s)) = some (dropBom s) := by
  rw [utf8Decoder, decode_encodeAll h, Option.map_some, dropBom]
  by_cases hbom : s.head? = some 0xFEFF
  · obtain ⟨t, rfl⟩ : ∃ t, s = 0xFEFF :: t := List.head?_eq_some_iff.1 hbom
    have hcs := codePoints_cons_of_not_high (u := 0xFEFF) (by decide) t
    rw [if_pos hbom, if_pos (head?_codePoints_eq_bom.2 hbom), hcs, List.tail_cons, List.tail_cons,
      ofCodePoints_codePoints]
  · rw [if_neg hbom, if_neg (mt head?_codePoints_eq_bom.1 hbom), ofCodePoints_codePoints]

/-- A well-formed string is encoded as it stands. -/
theorem utf8Encoder_of_wellFormed {s : Utf16} (h : WellFormed s) :
    utf8Encoder s = encodeAll (codePoints s) := by
  unfold utf8Encoder
  congr 1
  conv_rhs => rw [← List.map_id (codePoints s)]
  refine List.map_congr_left fun c hc => ?_
  rw [if_neg (h c hc).2]
  rfl

/-- The scan of a string's buffer ends with the text before the first `U+0000`, and cuts no
character. -/
theorem scanUnits_toUtf8 {s : Utf16} (h : WellFormed s) :
    scanUnits (toUtf8 s) = some (encodeAll (codePoints (s.takeWhile (· ≠ 0)))) := by
  rw [toUtf8_eq, scanUnits_terminated, utf8Encoder_of_wellFormed h,
    takeWhile_encodeAll (codePoints_lt s), codePoints_takeWhile h]

/-- **The C-string codec.** `toUtf8` writes every byte it allocates; the scan of `fromUtf8` stops at
one of them, behind the encoding of the longest prefix of `s` without `U+0000`; and the string read
is that prefix, without a byte-order mark in front. -/
theorem fromUtf8_toUtf8 {s : Utf16} (h : WellFormed s) :
    (toUtf8 s).length = (utf8Encoder s).length + 1 ∧ (∀ b ∈ toUtf8 s, b.isSome) ∧
      (∃ units, scanUnits (toUtf8 s) = some units ∧ units.length < (toUtf8 s).length ∧
        units = utf8Encoder (s.takeWhile (· ≠ 0))) ∧
      fromUtf8 (toUtf8 s) = some (dropBom (s.takeWhile (· ≠ 0))) := by
  have hprefix : WellFormed (s.takeWhile (· ≠ 0)) := h.takeWhile
  have hlen : (toUtf8 s).length = (utf8Encoder s).length + 1 := by simp [toUtf8_eq]
  have hstop : (encodeAll (codePoints (s.takeWhile (· ≠ 0)))).length ≤ (utf8Encoder s).length := by
    rw [utf8Encoder_of_wellFormed h, codePoints_takeWhile h,
      ← takeWhile_encodeAll (codePoints_lt s)]
    exact (List.takeWhile_sublist _).length_le
  refine ⟨hlen, ?_, ⟨_, scanUnits_toUtf8 h, by omega, (utf8Encoder_of_wellFormed hprefix).symm⟩, ?_⟩
  · intro b hb
    rw [toUtf8_eq] at hb
    obtain ⟨u, -, rfl⟩ := List.mem_map.1 hb
    rfl
  · rw [fromUtf8, scanUnits_toUtf8 h, Option.bind_some, utf8Decoder_encodeAll hprefix]

/-- A byte-order mark, `é` and `U+0000` in front of `b`: the mark and what follows the zero are
lost. -/
theorem fromUtf8_toUtf8_bom :
    WellFormed [0xFEFF, 0xE9, 0, 0x62] ∧
      fromUtf8 (toUtf8 [0xFEFF, 0xE9, 0, 0x62]) = some [0xE9] := by
  have hs : WellFormed [0xFEFF, 0xE9, 0, 0x62] := by decide
  have hread := (fromUtf8_toUtf8 hs).2.2.2
  have hprefix : dropBom (([0xFEFF, 0xE9, 0, 0x62] : Utf16).takeWhile (· ≠ 0)) = [0xE9] := by decide
  exact ⟨hs, hprefix ▸ hread⟩

/-! ## Dart strings in QuickJS -/

/-- The number of continuation bytes a lead byte announces, in the switch of
`unicode_from_utf8`. -/
def trailingBytes (c : Nat) : Option Nat :=
  if 0xC0 ≤ c ∧ c < 0xE0 then some 1
  else if 0xE0 ≤ c ∧ c < 0xF0 then some 2
  else if 0xF0 ≤ c ∧ c < 0xF8 then some 3
  else if 0xF8 ≤ c ∧ c < 0xFC then some 4
  else if 0xFC ≤ c ∧ c < 0xFE then some 5
  else none

/-- `utf8_first_code_mask[l - 1]`, as the modulus that keeps the same bits. -/
def utf8FirstCodeMod : Nat → Nat
  | 1 => 0x20
  | 2 => 0x10
  | 3 => 0x8
  | 4 => 0x4
  | _ => 0x2

/-- `utf8_min_code[l - 1]`. -/
def utf8MinCode : Nat → Nat
  | 1 => 0x80
  | 2 => 0x800
  | 3 => 0x10000
  | 4 => 0x200000
  | _ => 0x4000000

/-- The loop of `unicode_from_utf8` over the `l` continuation bytes. -/
def unicodeFromUtf8Loop : Nat → Nat → Bytes → Option (Nat × Bytes)
  | 0, c, bs => some (c, bs)
  | l + 1, c, b :: bs => if IsCont b then unicodeFromUtf8Loop l (c * 0x40 + payload b) bs else none
  | _ + 1, _, [] => none

/-- `unicode_from_utf8`: the character at the head of the buffer and the bytes behind it, or `none`
for its `-1`. -/
def unicodeFromUtf8 : Bytes → Option (Nat × Bytes)
  | [] => none
  | a :: bs =>
    if a.toNat < 0x80 then some (a.toNat, bs)
    else
      match trailingBytes a.toNat with
      | none => none
      | some l =>
        match unicodeFromUtf8Loop l (a.toNat % utf8FirstCodeMod l) bs with
        | none => none
        | some (c, rest) => if c < utf8MinCode l then none else some (c, rest)

/-- The bytes `JS_NewStringLen` skips after an invalid sequence. -/
def skipInvalid (bs : Bytes) : Bytes :=
  (bs.dropWhile fun b => decide (IsCont b)).tail.dropWhile fun b => decide (IsCont b)

/-- `JS_NewStringLen`, reading at most `fuel` characters: an invalid sequence becomes `U+FFFD`. -/
def jsNewStringFuel : Nat → Bytes → Utf16
  | _, [] => []
  | 0, _ :: _ => []
  | fuel + 1, b :: bs =>
    match unicodeFromUtf8 (b :: bs) with
    | some (c, rest) =>
      if c < 0x110000 then units c ++ jsNewStringFuel fuel rest
      else units 0xFFFD ++ jsNewStringFuel fuel (skipInvalid (b :: bs))
    | none => units 0xFFFD ++ jsNewStringFuel fuel (skipInvalid (b :: bs))

/-- `JS_NewStringLen(ctx, buf, buf_len)`. -/
def jsNewStringLen (bs : Bytes) : Utf16 := jsNewStringFuel bs.length bs

/-- What QuickJS makes of a Dart string passed as a C string: `toUtf8`, then `JS_NewStringLen` on
the bytes that `strlen` counts. -/
def ffiString (s : Utf16) : Utf16 := jsNewStringLen ((scanUnits (toUtf8 s)).getD [])

/-- A lead byte that announces `l` continuation bytes hands over to the loop. -/
theorem unicodeFromUtf8_lead {a : UInt8} {l : Nat} (ha : ¬ a.toNat < 0x80)
    (hl : trailingBytes a.toNat = some l) {bs rest : Bytes} {c : Nat}
    (hloop : unicodeFromUtf8Loop l (a.toNat % utf8FirstCodeMod l) bs = some (c, rest))
    (hmin : ¬ c < utf8MinCode l) : unicodeFromUtf8 (a :: bs) = some (c, rest) := by
  rw [unicodeFromUtf8, if_neg ha]
  simp only [hl, hloop]
  rw [if_neg hmin]

/-- One turn of the loop. -/
theorem unicodeFromUtf8Loop_cons {b : UInt8} {y : Nat} (hb : b.toNat = 0x80 + y) (hy : y < 0x40)
    (l c : Nat) (bs : Bytes) :
    unicodeFromUtf8Loop (l + 1) c (b :: bs) = unicodeFromUtf8Loop l (c * 0x40 + y) bs := by
  have hc : IsCont b := by unfold IsCont; omega
  have hp : payload b = y := by unfold payload; omega
  rw [unicodeFromUtf8Loop, if_pos hc, hp]

/-- The generalised UTF-8 of a code point is read back by `unicode_from_utf8`, which accepts
surrogates. -/
theorem unicodeFromUtf8_encode_append {c : Nat} (h : c < 0x110000) (rest : Bytes) :
    unicodeFromUtf8 (encode c ++ rest) = some (c, rest) := by
  unfold encode
  split_ifs with h₁ h₂ h₃
  · simp only [List.singleton_append, unicodeFromUtf8, toNat_byte (show c < 0x100 by omega),
      if_pos h₁]
  · have ha := toNat_byte (show 0xC0 + c / 0x40 < 0x100 by omega)
    have hb := toNat_byte (show 0x80 + c % 0x40 < 0x100 by omega)
    generalize UInt8.ofNat (0xC0 + c / 0x40) = a at ha ⊢
    have hl : trailingBytes a.toNat = some 1 := by rw [trailingBytes, if_pos (by omega)]
    have hlead : a.toNat % utf8FirstCodeMod 1 = c / 0x40 := by
      show a.toNat % 0x20 = c / 0x40
      omega
    have hn : c / 0x40 * 0x40 + c % 0x40 = c := by omega
    rw [List.cons_append, List.singleton_append]
    refine unicodeFromUtf8_lead (by omega) hl ?_ h₁
    rw [hlead, unicodeFromUtf8Loop_cons hb (by omega), hn]
    rfl
  · have ha := toNat_byte (show 0xE0 + c / 0x1000 < 0x100 by omega)
    have hb := toNat_byte (show 0x80 + c / 0x40 % 0x40 < 0x100 by omega)
    have hd := toNat_byte (show 0x80 + c % 0x40 < 0x100 by omega)
    generalize UInt8.ofNat (0xE0 + c / 0x1000) = a at ha ⊢
    have hl : trailingBytes a.toNat = some 2 := by
      rw [trailingBytes, if_neg (by omega), if_pos (by omega)]
    have hlead : a.toNat % utf8FirstCodeMod 2 = c / 0x1000 := by
      show a.toNat % 0x10 = c / 0x1000
      omega
    have hn : (c / 0x1000 * 0x40 + c / 0x40 % 0x40) * 0x40 + c % 0x40 = c := by omega
    rw [List.cons_append, List.cons_append, List.singleton_append]
    refine unicodeFromUtf8_lead (by omega) hl ?_ h₂
    rw [hlead, unicodeFromUtf8Loop_cons hb (by omega),
      unicodeFromUtf8Loop_cons hd (by omega), hn]
    rfl
  · have ha := toNat_byte (show 0xF0 + c / 0x40000 < 0x100 by omega)
    have hb := toNat_byte (show 0x80 + c / 0x1000 % 0x40 < 0x100 by omega)
    have hd := toNat_byte (show 0x80 + c / 0x40 % 0x40 < 0x100 by omega)
    have he := toNat_byte (show 0x80 + c % 0x40 < 0x100 by omega)
    generalize UInt8.ofNat (0xF0 + c / 0x40000) = a at ha ⊢
    have hl : trailingBytes a.toNat = some 3 := by
      rw [trailingBytes, if_neg (by omega), if_neg (by omega), if_pos (by omega)]
    have hlead : a.toNat % utf8FirstCodeMod 3 = c / 0x40000 := by
      show a.toNat % 0x8 = c / 0x40000
      omega
    have hn : ((c / 0x40000 * 0x40 + c / 0x1000 % 0x40) * 0x40 + c / 0x40 % 0x40) * 0x40
        + c % 0x40 = c := by omega
    rw [List.cons_append, List.cons_append, List.cons_append, List.singleton_append]
    refine unicodeFromUtf8_lead (by omega) hl ?_ h₃
    rw [hlead, unicodeFromUtf8Loop_cons hb (by omega), unicodeFromUtf8Loop_cons hd (by omega),
      unicodeFromUtf8Loop_cons he (by omega), hn]
    rfl

/-- `JS_NewStringLen` on generalised UTF-8, with fuel for each character. -/
theorem jsNewStringFuel_encodeAll {cs : List Nat} (h : ∀ c ∈ cs, c < 0x110000) {fuel : Nat}
    (hf : cs.length ≤ fuel) : jsNewStringFuel fuel (encodeAll cs) = ofCodePoints cs := by
  induction cs generalizing fuel with
  | nil => cases fuel <;> rfl
  | cons c cs ih =>
    rw [List.length_cons] at hf
    obtain ⟨n, rfl⟩ : ∃ n, fuel = n + 1 := ⟨fuel - 1, by omega⟩
    have hread := unicodeFromUtf8_encode_append (h c List.mem_cons_self) (encodeAll cs)
    obtain ⟨b, bs, hb⟩ := List.exists_cons_of_length_pos (encode_append_length_pos c (encodeAll cs))
    rw [encodeAll_cons]
    rw [hb] at hread ⊢
    rw [jsNewStringFuel, hread]
    simp only [if_pos (h c List.mem_cons_self)]
    rw [ih (fun d hd => h d (List.mem_cons_of_mem _ hd)) (by omega), ofCodePoints_cons]

/-- `JS_NewStringLen` on generalised UTF-8. -/
theorem jsNewStringLen_encodeAll {cs : List Nat} (h : ∀ c ∈ cs, c < 0x110000) :
    jsNewStringLen (encodeAll cs) = ofCodePoints cs :=
  jsNewStringFuel_encodeAll h (length_le_encodeAll cs)

/-- A string's code points as `Utf8Encoder` writes them are scalars. -/
theorem scalar_of_mem_fixed {s : Utf16} {c : Nat}
    (h : c ∈ (codePoints s).map fun c => if Surrogate c then 0xFFFD else c) : Scalar c := by
  obtain ⟨d, hd, rfl⟩ := List.mem_map.1 h
  split_ifs with hs
  · decide
  · exact ⟨codePoints_lt s d hd, hs⟩

/-- What crosses is the text before the first `U+0000`, its unpaired surrogates replaced. -/
theorem ffiString_eq (s : Utf16) :
    ffiString s = ofCodePoints
      (((codePoints s).map fun c => if Surrogate c then 0xFFFD else c).takeWhile (· ≠ 0)) := by
  have hlt : ∀ c ∈ (codePoints s).map fun c => if Surrogate c then 0xFFFD else c, c < 0x110000 :=
    fun c hc => (scalar_of_mem_fixed hc).1
  rw [ffiString, toUtf8_eq, scanUnits_terminated, Option.getD_some, utf8Encoder,
    takeWhile_encodeAll hlt,
    jsNewStringLen_encodeAll fun c hc => hlt c (List.takeWhile_subset _ hc)]

/-- What crosses is well formed, whatever the Dart string. -/
theorem wellFormed_ffiString (s : Utf16) : WellFormed (ffiString s) := by
  rw [ffiString_eq]
  exact wellFormed_ofCodePoints fun c hc => scalar_of_mem_fixed (List.takeWhile_subset _ hc)

/-- No `U+0000` crosses. -/
theorem zero_notMem_ffiString (s : Utf16) : 0 ∉ ffiString s := by
  have hscalar : ∀ c ∈ (((codePoints s).map fun c => if Surrogate c then 0xFFFD else c).takeWhile
      (· ≠ 0)), Scalar c := fun c hc => scalar_of_mem_fixed (List.takeWhile_subset _ hc)
  rw [← zero_mem_codePoints, ffiString_eq, codePoints_ofCodePoints hscalar]
  intro h₀
  simpa using List.mem_takeWhile_imp h₀

/-- A well-formed string without `U+0000` crosses unchanged. -/
theorem ffiString_eq_self {s : Utf16} (h : WellFormed s) (h₀ : 0 ∉ s) : ffiString s = s := by
  have hmap : ((codePoints s).map fun c => if Surrogate c then 0xFFFD else c) = codePoints s := by
    conv_rhs => rw [← List.map_id (codePoints s)]
    exact List.map_congr_left fun c hc => by rw [if_neg (h c hc).2]; rfl
  have hne : ∀ c ∈ codePoints s, decide (c ≠ 0) = true := by
    intro c hc
    rw [decide_eq_true_iff]
    rintro rfl
    exact h₀ (zero_mem_codePoints.1 hc)
  rw [ffiString_eq, hmap, List.takeWhile_eq_self_iff.2 hne, ofCodePoints_codePoints]

/-- Only a lone surrogate or `U+0000` gives another string. -/
theorem eq_of_ffiString_eq {s t : Utf16} (h : ffiString s = t) (h₀ : 0 ∉ s)
    (ht : 0xFFFD ∉ codePoints t) : s = t := by
  have hws : WellFormed s := by
    intro c hc
    refine ⟨codePoints_lt s c hc, fun hsur => ht ?_⟩
    have hne : ∀ d ∈ (codePoints s).map fun c => if Surrogate c then 0xFFFD else c,
        decide (d ≠ 0) = true := by
      intro d hd
      obtain ⟨e, he, rfl⟩ := List.mem_map.1 hd
      rw [decide_eq_true_iff]
      split_ifs
      · decide
      · rintro rfl
        exact h₀ (zero_mem_codePoints.1 he)
    rw [← h, ffiString_eq, List.takeWhile_eq_self_iff.2 hne,
      codePoints_ofCodePoints fun d hd => scalar_of_mem_fixed hd]
    exact List.mem_map.2 ⟨c, hc, if_pos hsur⟩
  rw [← h, ffiString_eq_self hws h₀]

/-! ## QuickJS strings in Dart -/

/-- The bytes `JS_ToCStringLen2` writes for a string, before its terminator. -/
def jsToCStringLen2 (s : Utf16) : Bytes := encodeAll (codePoints s)

/-- The copy `toCString` returns: `strlen` and `strcpy` stop at the first zero byte. -/
def toCString (s : Utf16) : Buffer := (((jsToCStringLen2 s).takeWhile (· ≠ 0)) ++ [0]).map some

/-- `Utf8Fix.fromUtf8(toCString(s))`: what Dart makes of a QuickJS string, or `none` for the
`FormatException` of malformed UTF-8. -/
def dartString (s : Utf16) : Option Utf16 := (scanUnits (toCString s)).bind utf8Decoder

/-- `Utf8Fix.fromUtf8` reads the code points before the first `U+0000`. -/
theorem dartString_eq (s : Utf16) :
    dartString s = utf8Decoder (encodeAll ((codePoints s).takeWhile (· ≠ 0))) := by
  rw [dartString, toCString, scanUnits_terminated, List.takeWhile_takeWhile]
  simp only [and_self, decide_eq_true_eq]
  rw [jsToCStringLen2, takeWhile_encodeAll (codePoints_lt s), Option.bind_some]

/-- A well-formed string is read up to its first `U+0000`, without a byte-order mark in front. -/
theorem dartString_of_wellFormed {s : Utf16} (h : WellFormed s) :
    dartString s = some (dropBom (s.takeWhile (· ≠ 0))) := by
  rw [dartString_eq, ← codePoints_takeWhile h, utf8Decoder_encodeAll (h.takeWhile)]

/-- A well-formed string without `U+0000` and without a byte-order mark in front is read as it
stands. -/
theorem dartString_eq_some {s : Utf16} (h : WellFormed s) (h₀ : 0 ∉ s)
    (hbom : s.head? ≠ some 0xFEFF) : dartString s = some s := by
  rw [dartString_of_wellFormed h, takeWhile_of_zero_notMem h₀, dropBom, if_neg hbom]

/-! ## The script handed to `eval` -/

/-- The arguments of the C function `eval`, which passes them on to `JS_Eval`. -/
structure EvalCall where
  input : Buffer
  inputLen : Nat

/-- A Dart `int` passed through the binding's `Int32` parameter to C's `size_t`: the low 32 bits,
sign-extended. -/
def sizeTOfInt32 (n : Nat) : Nat := ((n : Int).bmod (2 ^ 32) % 2 ^ 64).toNat

/-- `evalScript`: the buffer is UTF-8, the length is `jsString.length`, which counts UTF-16
units. -/
def evalScriptCall (jsString : Utf16) : EvalCall where
  input := toUtf8 jsString
  inputLen := sizeTOfInt32 jsString.length

/-- The call hands QuickJS the whole script `s`: the length is that of its UTF-8 encoding, the
buffer holds the encoding with the zero byte `eval` asks for behind it, and what QuickJS is given
decodes to `s`. -/
structure WholeScript (s : Utf16) (c : EvalCall) : Prop where
  length : c.inputLen = (encodeAll (codePoints s)).length
  bytes : c.input.take c.inputLen = (encodeAll (codePoints s)).map some
  terminated : c.input[c.inputLen]? = some (some 0)
  decoded : ((c.input.take c.inputLen).mapM id).bind decode = some (codePoints s)

/-- What `JS_Eval` gets is the text in UTF-8. -/
@[simp] theorem evalScriptCall_input (s : Utf16) : (evalScriptCall s).input = toUtf8 s := by
  rw [evalScriptCall]

/-- Its length is the number of units. -/
@[simp] theorem evalScriptCall_inputLen (s : Utf16) :
    (evalScriptCall s).inputLen = sizeTOfInt32 s.length := by
  rw [evalScriptCall]

/-- A length below `2 ^ 31` arrives as it is. -/
theorem sizeTOfInt32_of_lt {n : Nat} (h : n < 2 ^ 31) : sizeTOfInt32 n = n := by
  have hb : (n : Int).bmod (2 ^ 32) = n := Int.bmod_eq_of_le (by omega) (by omega)
  have hm : (n : Int) % 2 ^ 64 = n := Int.emod_eq_of_lt (by omega) (by omega)
  unfold sizeTOfInt32
  simp only [hb, hm, Int.toNat_natCast]

/-- What arrives is below `2 ^ 31`, or so large that no string has that many bytes. -/
theorem sizeTOfInt32_range (n : Nat) :
    sizeTOfInt32 n < 2 ^ 31 ∨ 2 ^ 64 - 2 ^ 31 ≤ sizeTOfInt32 n := by
  have hlo := Int.le_bmod (x := n) (m := 2 ^ 32) (by omega)
  have hhi := Int.bmod_lt (x := n) (m := 2 ^ 32) (by omega)
  unfold sizeTOfInt32
  generalize (n : Int).bmod (2 ^ 32) = b at hlo hhi ⊢
  omega

/-- The length `evalScript` passes is the encoding's exactly for ASCII scripts below `2 ^ 31`. -/
theorem sizeTOfInt32_eq_iff {s : Utf16} (hlen : (encodeAll (codePoints s)).length < 2 ^ 63) :
    sizeTOfInt32 s.length = (encodeAll (codePoints s)).length ↔
      (∀ u ∈ s, u.toNat < 0x80) ∧ s.length < 2 ^ 31 := by
  have hle := length_ofCodePoints_le (codePoints s)
  have heq := length_ofCodePoints_eq_iff (codePoints s)
  rw [ofCodePoints_codePoints] at hle heq
  rw [codePoints_ascii_iff] at heq
  by_cases h : s.length < 2 ^ 31
  · rw [sizeTOfInt32_of_lt h, heq]
    exact ⟨fun ha => ⟨ha, h⟩, fun ha => ha.1⟩
  · have hrange := sizeTOfInt32_range s.length
    refine ⟨fun he => ?_, fun ha => absurd ha.2 h⟩
    omega

/-- With the right length, the rest of the contract holds. -/
theorem wholeScript_of_length {s : Utf16} (hs : WellFormed s)
    (hlen : (evalScriptCall s).inputLen = (encodeAll (codePoints s)).length) :
    WholeScript s (evalScriptCall s) := by
  have hbuf : (evalScriptCall s).input = (encodeAll (codePoints s) ++ [0]).map some := by
    rw [evalScriptCall_input, toUtf8_eq, utf8Encoder_of_wellFormed hs]
  have htake : (evalScriptCall s).input.take (evalScriptCall s).inputLen
      = (encodeAll (codePoints s)).map some := by
    rw [hbuf, hlen, List.map_append]
    exact List.take_left' (List.length_map _)
  refine ⟨hlen, htake, ?_, ?_⟩
  · rw [hbuf, hlen, List.map_append, List.getElem?_append_right (by simp)]
    simp
  · rw [htake, mapM_id_map_some, Option.bind_some, decode_encodeAll hs]

/-- **The script handed to `eval`.** QuickJS is given the whole of a well-formed script exactly when
the script is ASCII and shorter than `2 ^ 31`: only then do the UTF-16 length that `evalScript`
passes and the UTF-8 length that `eval` expects agree. The bound on the encoding is that of a Dart
list's length. -/
theorem evalScript_wholeScript_iff {s : Utf16} (hs : WellFormed s)
    (hlen : (encodeAll (codePoints s)).length < 2 ^ 63) :
    WholeScript s (evalScriptCall s) ↔ (∀ u ∈ s, u.toNat < 0x80) ∧ s.length < 2 ^ 31 := by
  rw [← sizeTOfInt32_eq_iff hlen, ← evalScriptCall_inputLen]
  exact ⟨fun h => h.length, fun h => wholeScript_of_length hs h⟩

/-- The script `1+1` reaches QuickJS whole. -/
theorem evalScript_wholeScript_ascii :
    WellFormed [0x31, 0x2B, 0x31] ∧ (encodeAll (codePoints [0x31, 0x2B, 0x31])).length < 2 ^ 63 ∧
      WholeScript [0x31, 0x2B, 0x31] (evalScriptCall [0x31, 0x2B, 0x31]) := by
  have hs : WellFormed [0x31, 0x2B, 0x31] := by decide
  have hlen : (encodeAll (codePoints [0x31, 0x2B, 0x31])).length < 2 ^ 63 := by decide +kernel
  have hascii : ∀ u ∈ ([0x31, 0x2B, 0x31] : Utf16), u.toNat < 0x80 := by simp
  have hshort : ([0x31, 0x2B, 0x31] : Utf16).length < 2 ^ 31 := by norm_num
  exact ⟨hs, hlen, (evalScript_wholeScript_iff hs hlen).2 ⟨hascii, hshort⟩⟩

/-- The script `"é"` is cut: QuickJS is given three of its four bytes. -/
theorem evalScript_not_wholeScript :
    WellFormed [0x22, 0xE9, 0x22] ∧
      ¬ WholeScript [0x22, 0xE9, 0x22] (evalScriptCall [0x22, 0xE9, 0x22]) := by
  refine ⟨by decide, fun h => ?_⟩
  have hgiven : (evalScriptCall [0x22, 0xE9, 0x22]).inputLen = 3 := by
    rw [evalScriptCall_inputLen]
    exact sizeTOfInt32_of_lt (n := 3) (by norm_num)
  have hneeded : (encodeAll (codePoints [0x22, 0xE9, 0x22])).length = 4 := by decide
  have hlen := h.length
  rw [hgiven, hneeded] at hlen
  cases hlen

end QuickjsDart
