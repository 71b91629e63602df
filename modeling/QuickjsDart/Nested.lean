import QuickjsDart.Plain

/-!
# Top-level and nested values

`fromJSVal` reads a scalar through its own branch of C calls, and the same scalar inside an array
through JSON. The two agree for every array and object, and for the scalars that are `Plain`: not
`null`, no integer outside 32 bits, and no string that a C string or `Utf8Decoder` changes
(`fromJSVal_nested_iff`).
-/

namespace QuickjsDart

open Codec

/-! ## Strings -/

/-- Dart reads the very string exactly where it is well formed, has no `U+0000` and no byte-order
mark in front. -/
theorem dartString_eq_self_iff {s : Utf16} :
    dartString s = some s ↔ WellFormed s ∧ 0 ∉ s ∧ s.head? ≠ some 0xFEFF := by
  refine ⟨fun h => ?_, fun h => dartString_eq_some h.1 h.2.1 h.2.2⟩
  rw [dartString_eq, utf8Decoder] at h
  generalize hp : (codePoints s).takeWhile (· ≠ 0) = p at h
  have hpre : p <+: codePoints s := hp ▸ List.takeWhile_prefix _
  have hlt : ∀ c ∈ p, c < 0x110000 := fun c hc => codePoints_lt s c (hpre.subset hc)
  have hsc : ∀ c ∈ p, Scalar c := by
    by_contra hsc
    push Not at hsc
    obtain ⟨c, hc, hns⟩ := hsc
    rw [decode_eq_none_of_surrogate hlt
      ⟨c, hc, by_contra fun hs => hns ⟨hlt c hc, hs⟩⟩] at h
    cases h
  rw [decode_encodeAll hsc, Option.map_some, Option.some_inj] at h
  have hcp := congrArg codePoints h
  -- what was decoded is a part of the string, so nothing was left out
  split_ifs at hcp with hbom
  · rw [codePoints_ofCodePoints fun c hc => hsc c (List.mem_of_mem_tail hc)] at hcp
    have hlen := hpre.length_le
    rw [← hcp, List.length_tail] at hlen
    have hnil : p = [] := List.length_eq_zero_iff.1 (by omega)
    rw [hnil] at hbom
    cases hbom
  · rw [codePoints_ofCodePoints hsc] at hcp
    subst hcp
    refine ⟨hsc, ?_, mt head?_codePoints_eq_bom.2 hbom⟩
    rw [← zero_mem_codePoints]
    intro h₀
    have := List.takeWhile_eq_self_iff.1 hp 0 h₀
    simp at this

/-! ## Numbers -/

/-- The Dart number of the top-level branch. -/
def topNumber (v : JSValue) : DartVal :=
  if (toFloat64 v).isInt then .int (Int64.ofInt (toInt32 v).toInt) else .double (toFloat64 v)

/-- An integer is read as itself at the top. -/
theorem topNumber_int (n : Int32) :
    topNumber (.int n) = .ofNum (jsonNumber (intNumeral n.toInt)) := by
  have hlo := n.le_toInt
  have hhi := n.toInt_lt
  have hint : (Binary64.ofInt n.toInt).isInt = true :=
    Binary64.isInt_ofInt (abs_lt.2 ⟨by omega, by omega⟩)
  rw [jsonNumber_intNumeral (by omega) (by omega), topNumber, toFloat64, if_pos hint]
  rfl

/-- A number agrees with its literal where it is not integral, or fits 32 bits. -/
theorem topNumber_float64_iff (neg : Bool) (m : ℕ) (e : ℤ) (c : Canonical m e) :
    topNumber (.float64 (.fin neg m e c)) = .ofNum (jsonNumber (jsNumeral neg m e c)) ↔
      ((Binary64.fin neg m e c).isInt = true →
        -2 ^ 31 ≤ (Binary64.fin neg m e c).trunc ∧ (Binary64.fin neg m e c).trunc < 2 ^ 31) := by
  unfold topNumber toFloat64 toInt32
  dsimp only
  cases hint : (Binary64.fin neg m e c).isInt with
  | false =>
    rw [jsonNumber_of_not_isInt c hint]
    simp [DartVal.ofNum]
  | true =>
    obtain ⟨-, n, hn⟩ := (Binary64.isInt_iff _).1 hint
    have htr := Binary64.trunc_of_toRat hn
    rw [if_pos rfl, htr]
    have hlo := (Int32.ofInt n).le_toInt
    have hhi := (Int32.ofInt n).toInt_lt
    constructor
    · intro h _
      rcases jsonNumber_of_isInt c hn with ⟨k, hk, hkn⟩ | hd
      · rw [hk] at h
        injection h with h
        have hkt : k.toInt = (Int32.ofInt n).toInt := by
          rw [← h, Int64.toInt_ofInt_of_le (by omega) (by omega)]
        rcases hkn with hkn | hkn
        · rw [← hkn, hkt]
          exact ⟨hlo, hhi⟩
        · omega
      · rw [hd] at h
        cases h
    · intro h
      have hr := h rfl
      rw [jsonNumber_of_toRat c hn (by omega), Int32.toInt_ofInt_of_le (by omega) (by omega)]
      rfl

/-- The branch for numbers. -/
theorem fromJSVal_int (env : Env) (depth : ℕ) (n : Int32) (vm : VM) :
    fromJSVal env depth (.int n) vm = .ok (topNumber (.int n)) vm := by
  simp only [fromJSVal, valueType, topNumber]
  split_ifs <;> rfl

/-- A double is read as a number at the top, without the text. -/
theorem fromJSVal_float64 (env : Env) (depth : ℕ) (d : Binary64) (vm : VM) :
    fromJSVal env depth (.float64 d) vm = .ok (topNumber (.float64 d)) vm := by
  simp only [fromJSVal, valueType, topNumber]
  split_ifs <;> rfl

/-! ## Agreement -/

/-- The array `[v]`. -/
def IsSingleton (h : Heap) (a v : JSValue) : Prop :=
  ∃ r o fl, a = .object r ∧ h.obj? r = some o ∧ o.cls = .array 1 ∧
    NoMethod h toJSONName r ∧ o.getOwn (.ofNat 0) = some (.data v fl)

/-- `fromJSVal(v)` is element 0 of `fromJSVal(a)`. -/
def ReadsAlike (depth : ℕ) (vm : VM) (v a : JSValue) (env : Env) : Prop :=
  ∃ x vm₁ vm₂, fromJSVal env depth v vm = .ok x vm₁ ∧ fromJSVal env depth a vm = .ok (.list [x]) vm₂

/-- The values that the scalar branches and the JSON branch read alike. -/
def JSValue.Plain : JSValue → Prop
  | .null => False
  | .float64 d => d.isInt = true → -2 ^ 31 ≤ d.trunc ∧ d.trunc < 2 ^ 31
  | .string _ s => WellFormed s ∧ 0 ∉ s ∧ s.head? ≠ some 0xFEFF
  | _ => True

/-- The array `[v]` of plain data is plain data. -/
theorem IsSingleton.jsonOf {h : Heap} {a v : JSValue} {j : Json} (ha : IsSingleton h a v)
    (hv : JsonOf h v j) : ∃ r, a = .object r ∧ JsonOf h (.object r) (.arr [j]) := by
  obtain ⟨r, o, fl, rfl, ho, hc, hl, hget⟩ := ha
  refine ⟨r, rfl, ?_⟩
  have hi : ∀ i < 1, i = 0 := fun i hi => by omega
  exact JsonOf.arr (n := 1) (fun _ => v) (fun _ => fl) (fun _ => j) ho hc (by norm_num) hl
    (fun i hi' => by rw [hi i hi']; exact hget) fun _ _ => hv

variable (env : Env)

/-- What is read on both sides decides. -/
theorem readsAlike_iff {vm : VM} {a v : JSValue} {j : Json} {depth : ℕ} (hv : JsonOf vm.heap v j)
    (ha : IsSingleton vm.heap a v) (hd : j.depth + 1 < depth) :
    ReadsAlike depth vm v a env ↔
      (∃ vm', fromJSVal env depth v vm = .ok (dartOfJson j) vm') ∧ TextFits (.arr [j]) := by
  obtain ⟨r, rfl, hja⟩ := ha.jsonOf hv
  have hdepth : (Json.arr [j]).depth < depth := by
    simp only [Json.depth, Json.depthElems]
    omega
  have hlist : dartOfJson (.arr [j]) = .list [dartOfJson j] := by
    simp only [dartOfJson, dartOfElems]
  by_cases hfit : TextFits (.arr [j])
  · obtain ⟨vm₂, hrun₂, -⟩ := fromJSVal_of_jsonOf env hja hdepth hfit
    rw [hlist] at hrun₂
    rw [and_iff_left hfit]
    constructor
    · rintro ⟨x, vm₁, vm₃, hx, hl⟩
      rw [hrun₂] at hl
      cases hl
      exact ⟨vm₁, hx⟩
    · rintro ⟨vm₁, hx⟩
      exact ⟨_, vm₁, vm₂, hx, hrun₂⟩
  · obtain ⟨vm₂, hrun₂⟩ := fromJSVal_of_not_textFits env hja hdepth hfit
    refine iff_of_false ?_ fun h => hfit h.2
    rintro ⟨x, vm₁, vm₃, -, hl⟩
    rw [hrun₂] at hl
    cases hl

/-- The text of what is in an array is shorter. -/
theorem TextFits.of_arr {j : Json} (h : TextFits (.arr [j])) : TextFits j := by
  unfold TextFits at h ⊢
  rw [write_arr, elemsText, ofCodePoints_cons, if_pos rfl, List.nil_append, ofCodePoints_append,
    List.length_append, List.length_append] at h
  omega

/-- The branch of a value's type gives what its JSON text gives exactly where the value is plain. -/
theorem fromJSVal_eq_dartOfJson_iff {vm : VM} {v : JSValue} {j : Json} {depth : ℕ}
    (hv : JsonOf vm.heap v j) (hd : j.depth < depth) (hfit : TextFits j) :
    (∃ vm', fromJSVal env depth v vm = .ok (dartOfJson j) vm') ↔ v.Plain := by
  cases hv with
  | null =>
    -- the handle itself comes back
    have hrun : fromJSVal env depth .null vm = .ok (.jsValue .null) vm := rfl
    refine ⟨?_, False.elim⟩
    rintro ⟨vm', h⟩
    rw [hrun] at h
    cases h
  | bool b =>
    refine iff_of_true ⟨vm, ?_⟩ trivial
    cases b <;> rfl
  | int n =>
    refine iff_of_true ⟨vm, ?_⟩ trivial
    rw [fromJSVal_int, topNumber_int, dartOfJson]
  | float64 neg m e c =>
    rw [fromJSVal_float64, dartOfJson, JSValue.Plain, ← topNumber_float64_iff]
    constructor
    · rintro ⟨vm', h⟩
      injection h
    · intro h
      exact ⟨vm, by rw [h]⟩
  | str r s =>
    rw [JSValue.Plain, ← dartString_eq_self_iff]
    constructor
    · rintro ⟨vm', h⟩
      obtain ⟨t, vm₁, ht, h⟩ := bind_eq_ok.1 h
      cases h
      exact ((toDartString_string_eq_ok env).1 ht).1
    · intro h
      exact ⟨vm, bind_of_ok ((toDartString_string_eq_ok env).2 ⟨h, rfl⟩)⟩
  | arr vals flags js ho hc hn hl hget hjs =>
    obtain ⟨vm', hrun, -⟩ := fromJSVal_of_jsonOf env
      (JsonOf.arr vals flags js ho hc hn hl hget hjs) hd hfit
    exact iff_of_true ⟨vm', hrun⟩ trivial
  | obj vals flags js ho hc hl hget hjs =>
    obtain ⟨vm', hrun, -⟩ := fromJSVal_of_jsonOf env
      (JsonOf.obj vals flags js ho hc hl hget hjs) hd hfit
    exact iff_of_true ⟨vm', hrun⟩ trivial

/-- **Top-level and nested values.** For a value that JSON can represent, the branch of `fromJSVal`
for its type gives what the JSON branch gives exactly where the value is plain and the text of the
array fits a string. -/
theorem fromJSVal_nested_iff {vm : VM} {a v : JSValue} {j : Json} {depth : ℕ}
    (hv : JsonOf vm.heap v j) (ha : IsSingleton vm.heap a v) (hd : j.depth + 1 < depth) :
    ReadsAlike depth vm v a env ↔ v.Plain ∧ TextFits (.arr [j]) := by
  rw [readsAlike_iff env hv ha hd]
  exact and_congr_left fun hfit =>
    fromJSVal_eq_dartOfJson_iff env hv (Nat.lt_of_succ_lt hd) hfit.of_arr

/-- A started engine with the array `[v]` at cell 9. -/
def singletonVM (v : JSValue) : VM :=
  VM.bare.alloc (.obj ⟨.array 1, some arrayPrototype, true, [(.index 0, .data v .cwe)]⟩)

/-- The array below has one element. -/
theorem isSingleton_singletonVM (v : JSValue) : IsSingleton (singletonVM v).heap (.object 9) v := by
  refine ⟨9, _, .cwe, rfl, rfl, rfl, fun fuel => Or.inl ?_, rfl⟩
  -- the chain of an array has two prototypes
  match fuel with
  | 0 | 1 | 2 | 3 => rfl
  | _ + 4 => rfl

/-- A truth value is read alike. -/
theorem fromJSVal_nested_true :
    JsonOf (singletonVM (.bool true)).heap (.bool true) (.bool true) ∧
      IsSingleton (singletonVM (.bool true)).heap (.object 9) (.bool true) ∧
      ReadsAlike 2 (singletonVM (.bool true)) (.bool true) (.object 9) Env.bare :=
  ⟨.bool true, isSingleton_singletonVM _,
    (fromJSVal_nested_iff Env.bare (.bool true) (isSingleton_singletonVM _) (by decide)).2
      ⟨trivial, by decide⟩⟩

/-- `fromJSVal(null)` is a handle, and `fromJSVal([null])` is `[null]`. -/
theorem fromJSVal_null_not_nested :
    JsonOf (singletonVM .null).heap .null .null ∧
      IsSingleton (singletonVM .null).heap (.object 9) .null ∧
      ¬ ReadsAlike 2 (singletonVM .null) .null (.object 9) Env.bare := by
  refine ⟨.null, isSingleton_singletonVM _, ?_⟩
  intro h
  obtain ⟨⟨vm', hrun⟩, -⟩ :=
    (readsAlike_iff Env.bare .null (isSingleton_singletonVM _) (by decide)).1 h
  cases hrun

end QuickjsDart
