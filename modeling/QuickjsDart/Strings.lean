import QuickjsDart.Plain
import QuickjsDart.Util

/-!
# Strings out and back

Two ways of a string through the engine and back into Dart: `newString` followed by `toDartString`,
and the console, which writes an argument as JSON and undoes the quoting by deleting backslashes and
trimming quotes.

`newString_toDartString_iff` and `consoleText_iff` say for which strings they give the string back.
-/

namespace QuickjsDart

open Codec

variable (env : Env)

/-! ## `newString` and `toDartString` -/

/-- What comes back from `newString` is read from the string QuickJS was given. -/
theorem newString_toDartString_eq_ok {s t : Utf16} {vm vm' : VM} :
    (newString s >>= toDartString env) vm = .ok t vm' ↔
      dartString (ffiString s) = some t ∧ vm.alloc .leaf = vm' := by
  have hnew : newString s vm = .ok (.string vm.heap.length (ffiString s)) (vm.alloc .leaf) := rfl
  rw [bind_of_ok hnew, toDartString_string_eq_ok]

/-- **Strings through the bridge.** A well-formed string comes back exactly when no part of it is
taken for a terminator and its first character is not taken for a byte-order mark. -/
theorem newString_toDartString_iff {s : Utf16} (hs : WellFormed s) (vm : VM) :
    (∃ vm', (newString s >>= toDartString env) vm = .ok s vm') ↔
      0 ∉ s ∧ s.head? ≠ some 0xFEFF := by
  simp only [newString_toDartString_eq_ok, exists_and_left, exists_eq', and_true]
  constructor
  · intro hread
    have hmid := zero_notMem_ffiString s
    rw [dartString_of_wellFormed (wellFormed_ffiString s), takeWhile_of_zero_notMem hmid,
      Option.some_inj] at hread
    have h₀ : 0 ∉ s := by
      intro hmem
      rw [← hread] at hmem
      unfold dropBom at hmem
      split_ifs at hmem
      · exact hmid (List.mem_of_mem_tail hmem)
      · exact hmid hmem
    refine ⟨h₀, fun hbom => ?_⟩
    -- a mark in front is gone, and the string is shorter
    rw [ffiString_eq_self hs h₀, dropBom, if_pos hbom] at hread
    obtain ⟨t, rfl⟩ := List.head?_eq_some_iff.1 hbom
    have hlen := congrArg List.length hread
    simp at hlen
  · rintro ⟨h₀, hbom⟩
    rw [ffiString_eq_self hs h₀, dartString_eq_some hs h₀ hbom]

/-- `é` comes back. -/
theorem newString_toDartString_latin :
    WellFormed [0xE9] ∧
      ∃ vm', (newString [0xE9] >>= toDartString Env.bare) VM.bare = .ok [0xE9] vm' := by
  have hs : WellFormed [0xE9] := by decide
  exact ⟨hs, (newString_toDartString_iff Env.bare hs VM.bare).2 ⟨by decide, by decide⟩⟩

/-- `a`, `U+0000`, `b` comes back as `a`. -/
theorem newString_toDartString_nul :
    WellFormed [0x61, 0, 0x62] ∧
      ¬ ∃ vm', (newString [0x61, 0, 0x62] >>= toDartString Env.bare) VM.bare
        = .ok [0x61, 0, 0x62] vm' := by
  refine ⟨by decide, ?_⟩
  rintro ⟨vm', h⟩
  have hread := ((newString_toDartString_eq_ok Env.bare).1 h).1
  exact absurd hread (by decide)

/-! ## The console -/

/-- `replaceAll('\\', '')`. -/
def dropBackslashes (s : Utf16) : Utf16 := s.filter (· ≠ 0x5C)

/-- What the handler of `__console_write` logs for an argument. -/
def consoleText (depth : ℕ) (element : JSValue) : Dart Utf16 := do
  let text ← toJSONString env depth element
  match trimQuote (dropBackslashes text) with
  | some t => pure t
  | none => throw (.throws .argumentError)

/-- The unit a character without control code or backslash is written as in JSON. -/
def escapeUnit (u : UInt16) : Utf16 := if u = 0x22 then [0x5C, 0x22] else [u]

/-- A character whose units `escapeUnit` writes: no control code, no backslash, no surrogate. -/
def Printable (c : ℕ) : Prop := 0x20 ≤ c ∧ c ≠ 0x5C ∧ Scalar c

/-- A unit holds what is below 2^16. -/
theorem toNat_unit {n : ℕ} (h : n < 0x10000) : (UInt16.ofNat n).toNat = n := by
  rw [UInt16.toNat_ofNat']
  exact Nat.mod_eq_of_lt h

/-- A unit of a character from the space on is from the space on. -/
theorem le_of_mem_units {c : ℕ} (hc : 0x20 ≤ c) (hlt : c < 0x110000) {u : UInt16}
    (hu : u ∈ units c) : 0x20 ≤ u.toNat ∧ (u.toNat < 0x80 → u.toNat = c) := by
  unfold units at hu
  split_ifs at hu with h
  · rw [List.mem_singleton.1 hu, toNat_unit h]
    exact ⟨hc, fun _ => rfl⟩
  · rcases List.mem_cons.1 hu with rfl | hu
    · rw [toNat_unit (by omega)]
      omega
    · rw [List.mem_singleton.1 hu, toNat_unit (by omega)]
      omega

/-- What JSON writes for a character is from the space on. -/
theorem le_of_mem_escape {c d : ℕ} (h : d ∈ Json.escape c) : 0x20 ≤ d := by
  unfold Json.escape at h
  split at h
  · next e he =>
    have hle : 0x20 ≤ e := by
      unfold Json.shortEscape at he
      split_ifs at he <;> cases he <;> decide
    rcases List.mem_cons.1 h with rfl | h
    · decide
    · rwa [List.mem_singleton.1 h]
  · split_ifs at h with hc
    · have hx : ∀ n, 0x20 ≤ Json.hexDigit (n % 0x10) := by
        intro n
        unfold Json.hexDigit
        split_ifs <;> omega
      simp only [List.mem_cons, List.not_mem_nil, or_false] at h
      rcases h with rfl | rfl | rfl | rfl | rfl | rfl
      · decide
      · decide
      all_goals exact hx _
    · rw [List.mem_singleton.1 h]
      omega

/-- A printable character is written as itself, a quote apart. -/
theorem ofCodePoints_escape {c : ℕ} (h : Printable c) :
    ofCodePoints (Json.escape c) = (units c).flatMap escapeUnit := by
  obtain ⟨hle, hne, hlt, hns⟩ := h
  by_cases hq : c = 0x22
  · subst hq
    decide
  · have hesc : Json.escape c = [c] := by
      have hshort : Json.shortEscape c = none := by
        unfold Json.shortEscape
        split_ifs <;> first | omega | rfl
      rw [Json.escape, hshort]
      exact if_neg (not_or.2 ⟨by omega, hns⟩)
    have hunit : ∀ u ∈ units c, escapeUnit u = [u] := by
      intro u hu
      refine if_neg ?_
      rintro rfl
      exact hq ((le_of_mem_units hle hlt hu).2 (by decide)).symm
    rw [hesc, ofCodePoints_cons, ofCodePoints_nil, List.append_nil, List.flatMap_congr hunit]
    exact (List.flatMap_singleton' _).symm

/-- A string of printable characters is written unit by unit. -/
theorem ofCodePoints_flatMap_escape {s : Utf16} (h : ∀ c ∈ codePoints s, Printable c) :
    ofCodePoints ((codePoints s).flatMap Json.escape) = s.flatMap escapeUnit := by
  conv_rhs => rw [← ofCodePoints_codePoints s]
  rw [ofCodePoints, ofCodePoints, List.flatMap_assoc, List.flatMap_assoc]
  exact List.flatMap_congr fun c hc => ofCodePoints_escape (h c hc)

/-- The characters of a well-formed string without control codes and backslashes. -/
theorem printable_of_units {s : Utf16} (hs : WellFormed s)
    (h : ∀ u ∈ s, 0x20 ≤ u.toNat ∧ u ≠ 0x5C) : ∀ c ∈ codePoints s, Printable c := by
  intro c hc
  have hunit : c < 0x80 → UInt16.ofNat c ∈ s := by
    intro hlt
    rw [← ofCodePoints_codePoints s]
    refine List.mem_flatMap.2 ⟨c, hc, ?_⟩
    rw [units, if_pos (by omega)]
    exact List.mem_singleton_self _
  refine ⟨?_, ?_, hs c hc⟩
  · by_contra hlt
    have hle := (h _ (hunit (by omega))).1
    rw [toNat_unit (by omega)] at hle
    exact hlt hle
  · rintro rfl
    exact (h _ (hunit (by decide))).2 rfl

/-- Deleting the backslashes undoes the escapes of quotes. -/
theorem dropBackslashes_flatMap_escapeUnit {s : Utf16} (h : ∀ u ∈ s, u ≠ 0x5C) :
    dropBackslashes (s.flatMap escapeUnit) = s := by
  induction s with
  | nil => rfl
  | cons u s ih =>
    have hu : dropBackslashes (escapeUnit u) = [u] := by
      unfold escapeUnit
      split_ifs with hq
      · subst hq
        rfl
      · exact List.filter_cons_of_pos (by simpa using h u List.mem_cons_self)
    have htail := ih fun v hv => h v (List.mem_cons_of_mem _ hv)
    unfold dropBackslashes at hu htail ⊢
    rw [List.flatMap_cons, List.filter_append, hu, htail, List.singleton_append]

/-- Each quote takes a unit more. -/
theorem length_flatMap_escapeUnit (s : Utf16) :
    (s.flatMap escapeUnit).length = s.length + s.count 0x22 := by
  induction s with
  | nil => rfl
  | cons u s ih =>
    rw [List.flatMap_cons, List.length_append, ih, List.length_cons, List.count_cons]
    by_cases hq : u = 0x22
    · simp [escapeUnit, hq]
      omega
    · simp [escapeUnit, hq]
      omega

/-- The units of a quoted string. -/
theorem ofCodePoints_quote (s : Utf16) :
    ofCodePoints (Json.quote s)
      = 0x22 :: (ofCodePoints ((codePoints s).flatMap Json.escape) ++ [0x22]) := by
  rw [Json.quote, ofCodePoints_cons, ofCodePoints_append]
  rfl

/-- What is logged for a string: its escaped text without backslashes. A text that is too long is a
null pointer. -/
theorem consoleText_string (depth : ℕ) (r : Ref) (s : Utf16) (vm : VM) :
    ∃ vm', consoleText env (depth + 1) (.string r s) vm =
      if (ofCodePoints (Json.quote s)).length ≤ stringLenMax then
        .ok (dropBackslashes (ofCodePoints ((codePoints s).flatMap Json.escape))) vm'
      else .error .crash vm' := by
  have hj : JsonOf vm.heap (.string r s) (.str s) := .str r s
  have hkind : valueType env vm.heap (.string r s) ≠ .unknown := JSValueType.noConfusion
  obtain ⟨vm₁, -, hrun⟩ := jsJSONStringify_eq env hj (Nat.succ_pos depth)
  split_ifs with hfit
  · have hfit' : TextFits (.str s) := hfit
    rw [if_pos hfit'] at hrun
    have hread : toDartString env (.string vm₁.heap.length (ofCodePoints (Json.quote s)))
        (vm₁.alloc .leaf) = .ok (ofCodePoints (Json.quote s)) (vm₁.alloc .leaf) :=
      (toDartString_string_eq_ok env).2 ⟨dartString_write (.str s), rfl⟩
    have hseq :
        (ffi .exception (jsJSONStringify env (depth + 1) (.string r s)) >>= toDartString env)
        vm = .ok (ofCodePoints (Json.quote s)) (vm₁.alloc .leaf) := by
      rw [bind_of_ok (ffi_of_ok hrun)]
      exact hread
    have hjson : toJSONString env (depth + 1) (.string r s) vm
        = .ok (ofCodePoints (Json.quote s)) (vm₁.alloc .leaf) := by
      rw [toJSONString, if_neg hkind, hseq]
    have hdrop : dropBackslashes (ofCodePoints (Json.quote s))
        = 0x22 ::
          (dropBackslashes (ofCodePoints ((codePoints s).flatMap Json.escape)) ++ [0x22]) := by
      rw [ofCodePoints_quote, dropBackslashes, List.filter_cons_of_pos (by decide),
        List.filter_append]
      rfl
    refine ⟨vm₁.alloc .leaf, ?_⟩
    rw [consoleText, bind_of_ok hjson, hdrop, trimQuote_quoted]
    rfl
  · have hfit' : ¬ TextFits (.str s) := hfit
    rw [if_neg hfit'] at hrun
    have hffi : ffi .exception (jsJSONStringify env (depth + 1) (.string r s)) vm
        = .ok .exception { vm₁ with currentException := some (.error "string too long") } := by
      unfold ffi
      rw [hrun]
      rfl
    have hseq :
        (ffi .exception (jsJSONStringify env (depth + 1) (.string r s)) >>= toDartString env)
        vm = .error .crash { vm₁ with currentException := some (.error "string too long") } := by
      rw [bind_of_ok hffi]
      rfl
    have hjson : toJSONString env (depth + 1) (.string r s) vm
        = .error .crash { vm₁ with currentException := some (.error "string too long") } := by
      rw [toJSONString, if_neg hkind, hseq]
    exact ⟨_, bind_of_error hjson⟩

/-- The logged text has no control code and no backslash. -/
theorem of_mem_logged {s : Utf16} {u : UInt16}
    (h : u ∈ dropBackslashes (ofCodePoints ((codePoints s).flatMap Json.escape))) :
    0x20 ≤ u.toNat ∧ u ≠ 0x5C := by
  obtain ⟨hmem, hne⟩ := List.mem_filter.1 h
  obtain ⟨d, hd, hu⟩ := List.mem_flatMap.1 hmem
  obtain ⟨c, hc, hdc⟩ := List.mem_flatMap.1 hd
  have hlt := (Json.scalar_of_mem_escape (codePoints_lt s c hc) hdc).1.1
  exact ⟨(le_of_mem_units (le_of_mem_escape hdc) hlt hu).1, by simpa using hne⟩

/-- **The console.** A well-formed string is logged as it stands exactly when it has no control code
and no backslash, and its quoted text is no longer than a QuickJS string. -/
theorem consoleText_iff {s : Utf16} (hs : WellFormed s) (depth : ℕ) (r : Ref) (vm : VM) :
    (∃ vm', consoleText env (depth + 1) (.string r s) vm = .ok s vm') ↔
      (∀ u ∈ s, 0x20 ≤ u.toNat ∧ u ≠ 0x5C) ∧ s.length + s.count 0x22 + 2 ≤ stringLenMax := by
  have hlen : (∀ u ∈ s, 0x20 ≤ u.toNat ∧ u ≠ 0x5C) →
      (ofCodePoints (Json.quote s)).length = s.length + s.count 0x22 + 2 := by
    intro hunits
    rw [ofCodePoints_quote, ofCodePoints_flatMap_escape (printable_of_units hs hunits),
      List.length_cons, List.length_append, length_flatMap_escapeUnit]
    rfl
  obtain ⟨vm₁, hrun⟩ := consoleText_string env depth r s vm
  constructor
  · rintro ⟨vm', h⟩
    rw [hrun] at h
    split_ifs at h with hfit
    obtain ⟨hread, -⟩ := EStateM.Result.ok.inj h
    have hunits : ∀ u ∈ s, 0x20 ≤ u.toNat ∧ u ≠ 0x5C := by
      intro u hu
      rw [← hread] at hu
      exact of_mem_logged hu
    exact ⟨hunits, hlen hunits ▸ hfit⟩
  · rintro ⟨hunits, hfit⟩
    refine ⟨vm₁, ?_⟩
    rw [hrun, if_pos ((hlen hunits).symm ▸ hfit),
      ofCodePoints_flatMap_escape (printable_of_units hs hunits),
      dropBackslashes_flatMap_escapeUnit fun u hu => (hunits u hu).2]

/-- `"é"`, with its quotes, is logged as it stands. -/
theorem consoleText_quotes :
    WellFormed [0x22, 0xE9, 0x22] ∧
      ∃ vm', consoleText Env.bare 1 (.string 0 [0x22, 0xE9, 0x22]) VM.bare
        = .ok [0x22, 0xE9, 0x22] vm' := by
  have hs : WellFormed [0x22, 0xE9, 0x22] := by decide
  have hunits : ∀ u ∈ ([0x22, 0xE9, 0x22] : Utf16), 0x20 ≤ u.toNat ∧ u ≠ 0x5C := by simp
  have hfit : ([0x22, 0xE9, 0x22] : Utf16).length + ([0x22, 0xE9, 0x22] : Utf16).count 0x22 + 2
      ≤ stringLenMax := by
    simp [stringLenMax]
  exact ⟨hs, (consoleText_iff Env.bare hs 0 0 VM.bare).2 ⟨hunits, hfit⟩⟩

/-- A line feed is logged as the letter `n`. -/
theorem consoleText_newline :
    WellFormed [0x0A] ∧
      (∃ vm', consoleText Env.bare 1 (.string 0 [0x0A]) VM.bare = .ok [0x6E] vm') ∧
      ¬ ∃ vm', consoleText Env.bare 1 (.string 0 [0x0A]) VM.bare = .ok [0x0A] vm' := by
  have hlogged :
      dropBackslashes (ofCodePoints ((codePoints [0x0A]).flatMap Json.escape)) = [0x6E] := by
    decide
  have hfit : (ofCodePoints (Json.quote [0x0A])).length ≤ stringLenMax := by decide
  obtain ⟨vm₁, hrun⟩ := consoleText_string Env.bare 0 0 [0x0A] VM.bare
  rw [if_pos hfit, hlogged] at hrun
  refine ⟨by decide, ⟨vm₁, hrun⟩, ?_⟩
  rintro ⟨vm', h⟩
  have hread := (EStateM.Result.ok.inj (hrun.symm.trans h)).1
  exact absurd hread (by decide)

end QuickjsDart
