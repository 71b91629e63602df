import QuickjsDart.Arguments
import QuickjsDart.Util

/-!
# Parameters as array buffers

`callJSEncode` sends each parameter as its JSON text in an `ArrayBuffer`. `toArray` writes a code
unit below `0x100` as one byte and any other as two, high byte first, which is UTF-8 on ASCII texts
and on no others (`toArray_eq_utf8Encoder_iff`).
-/

namespace QuickjsDart

open Codec Memory

/-! ## Bytes of a text -/

/-- The bytes that `pointer[j] = paramsIntList[j]` stores. -/
def storedBytes (ints : List ℕ) : Bytes := ints.map UInt8.ofNat

/-- `Utf8ArrayToStr`, the receiver: a byte that is missing at the end counts as zero, and one that
starts no sequence of up to three bytes is skipped. -/
def utf8ArrayToStr : Bytes → Utf16
  | [] => []
  | c :: rest =>
    if c.toNat / 16 ≤ 7 then UInt16.ofNat c.toNat :: utf8ArrayToStr rest
    else if c.toNat / 16 = 12 ∨ c.toNat / 16 = 13 then
      match rest with
      | [] => [UInt16.ofNat (c.toNat % 0x20 * 0x40)]
      | d :: rest =>
        UInt16.ofNat (c.toNat % 0x20 * 0x40 + d.toNat % 0x40) :: utf8ArrayToStr rest
    else if c.toNat / 16 = 14 then
      match rest with
      | [] => [UInt16.ofNat (c.toNat % 0x10 * 0x1000)]
      | [d] => [UInt16.ofNat (c.toNat % 0x10 * 0x1000 + d.toNat % 0x40 * 0x40)]
      | d :: e :: rest =>
        UInt16.ofNat (c.toNat % 0x10 * 0x1000 + d.toNat % 0x40 * 0x40 + e.toNat % 0x40)
          :: utf8ArrayToStr rest
    else utf8ArrayToStr rest

/-- The bytes of a text under `toArray`. -/
def textBytes (t : Utf16) : Bytes := storedBytes (t.flatMap unitInts)

/-! ## The call -/

/-- `newArrayBufferCopy`: the length crosses as an `Int32`, and QuickJS refuses a negative one,
which it reads as a `size_t`. -/
def newArrayBufferCopy (proto : Ref) (buf : Bytes) (len : ℕ) : Dart JSValue :=
  if (Int32.ofInt len).toInt < 0 then ffi .exception (throw (.error "invalid array buffer length"))
  else newCell .object (.obj (.fresh (.arrayBuffer (buf.take (Int32.ofInt len).toInt.toNat)) proto))

/-- A Dart function that does not touch the engine. -/
def liftExcept {α : Type} : Except DartError α → Dart α
  | .ok a => pure a
  | .error e => throw (.throws e)

/-- A `catch` that throws the same error for each. -/
def catchTypeError {α : Type} (act : Dart α) : Dart α := fun vm =>
  match act vm with
  | .error (.throws _) vm => .error (.throws (.quickJS "not Function")) vm
  | r => r

section

variable {Object : Type} (jsonEncode : Object → Except DartError Utf16) (proto : Ref)

/-- The loop of `_toUint8ArrayParams`. Each buffer gets a cell of its own. -/
def toUint8ArrayParams : List Object → Native → Dart (List ℕ × Native)
  | [], mem => pure ([], mem)
  | params :: rest, mem => do
    let text ← liftExcept (jsonEncode params)
    let paramsIntList ← liftExcept (toArray text none)
    let jsArrayBuf ← newArrayBufferCopy proto (storedBytes paramsIntList) paramsIntList.length
    let (argvs, mem') ← toUint8ArrayParams rest (mem.storeValues [jsArrayBuf])
    pure (mem.free :: argvs, mem')

variable (env : Env) (nulls : NullArgument)

/-- `JSValue.callJSEncode`, up to the call. -/
def handCallJSEncode (f : JSValue) (params : List Object) (mem : Native) :
    Dart (Handover × Native) :=
  fun vm =>
  if isFunction env vm.heap f then
    catchTypeError (do
      let (argvs, mem) ← toUint8ArrayParams jsonEncode proto params mem
      handCallJS env nulls f (some argvs) mem) vm
  else .error (.throws (.quickJS "not Function")) vm

/-- The argument at an index is an array buffer with these bytes. -/
def BufferAt (h : Handover) (mem : Native) (vm : VM) (i : ℕ) (bs : Bytes) : Prop :=
  ∃ r o, mem.values (h.argv + valueSize * i) = some (.object r) ∧ vm.heap.obj? r = some o ∧
    o.cls = .arrayBuffer bs

/-- The texts arrive as UTF-8: one buffer for each in order, the receiver recovers the text, and
different texts have different buffers. -/
structure Transports (f : JSValue) (ts : List Utf16) (h : Handover) (mem : Native) (vm : VM) :
    Prop where
  target : h.target = .call f .null
  argc : h.argc.toInt = ts.length
  bytes : ∀ (i : ℕ) t, ts[i]? = some t → BufferAt h mem vm i (utf8Encoder t)
  recovers : ∀ (i : ℕ) t bs, ts[i]? = some t → BufferAt h mem vm i bs → utf8ArrayToStr bs = t
  differ : ∀ (i j : ℕ) t u bs cs, ts[i]? = some t → ts[j]? = some u → BufferAt h mem vm i bs →
    BufferAt h mem vm j cs → t ≠ u → bs ≠ cs

end

/-! ## Against UTF-8 -/

/-- The bytes of one code point under `toArray`. -/
def rawBytes (c : ℕ) : Bytes := textBytes (units c)

/-- Bytes of a text, part by part. -/
theorem textBytes_append (s t : Utf16) : textBytes (s ++ t) = textBytes s ++ textBytes t := by
  unfold textBytes storedBytes
  rw [List.flatMap_append, List.map_append]

/-- Bytes of a text, character by character. -/
theorem textBytes_ofCodePoints (cs : List ℕ) :
    textBytes (ofCodePoints cs) = cs.flatMap rawBytes := by
  induction cs with
  | nil => rfl
  | cons c cs ih => rw [ofCodePoints_cons, textBytes_append, ih, List.flatMap_cons, rawBytes]

/-- What `Utf8Encoder` writes for a code point. -/
def dartBytes (c : ℕ) : Bytes := Codec.encode (if Surrogate c then 0xFFFD else c)

/-- `utf8Encoder`, character by character. -/
theorem utf8Encoder_eq (s : Utf16) : utf8Encoder s = (codePoints s).flatMap dartBytes := by
  unfold utf8Encoder encodeAll
  rw [List.flatMap_map]
  rfl

/-- A unit below 0x100 becomes one byte, and any other two. -/
theorem textBytes_unit {n : ℕ} (hn : n < 0x10000) :
    textBytes [UInt16.ofNat n]
      = if n < 0x100 then [UInt8.ofNat n]
        else [UInt8.ofNat (n / 0x100), UInt8.ofNat (n % 0x100)] := by
  have hval : (UInt16.ofNat n).toNat = n := by rw [UInt16.toNat_ofNat', Nat.mod_eq_of_lt hn]
  unfold textBytes storedBytes unitInts
  rw [List.flatMap_singleton, hval]
  by_cases h : n < 0x100
  · rw [if_pos h, Nat.div_eq_of_lt h, Nat.mod_eq_of_lt h]
    rfl
  · have hpos : 0 < n / 0x100 := Nat.div_pos (Nat.le_of_not_lt h) (by decide)
    rw [if_neg h]
    dsimp only
    rw [if_pos hpos]
    rfl

/-- Outside ASCII `toArray` writes fewer bytes than UTF-8 has, or another first one. -/
theorem rawBytes_ne {c : ℕ} (h : ¬ c < 0x80) (hc : c < 0x110000) :
    (rawBytes c).length < (dartBytes c).length ∨
      (rawBytes c).length = (dartBytes c).length ∧ (rawBytes c).head? ≠ (dartBytes c).head? := by
  unfold rawBytes units
  by_cases hbmp : c < 0x10000
  · rw [if_pos hbmp, textBytes_unit hbmp]
    unfold dartBytes
    by_cases hsur : Surrogate c
    · -- two bytes against the three of the replacement character
      have hge : ¬ c < 0x100 := by
        have := hsur.1
        omega
      rw [if_pos hsur, if_neg hge]
      exact .inl (Nat.lt_succ_self 2)
    · rw [if_neg hsur]
      unfold Codec.encode
      rw [if_neg h, if_pos hbmp]
      split_ifs with h₁ h₂ h₂
      · exact .inl (Nat.lt_succ_self 1)
      · omega
      · refine .inr ⟨rfl, fun heq => ?_⟩
        have hbyte := congrArg UInt8.toNat (Option.some.inj heq)
        rw [toNat_byte (by omega), toNat_byte (by omega)] at hbyte
        omega
      · exact .inl (Nat.lt_succ_self 2)
  · have hsur : ¬ Surrogate c := fun hs => by
      have := hs.2
      omega
    have hhi : 0xD800 + (c - 0x10000) / 0x400 < 0x10000 := by omega
    have hlo : 0xDC00 + (c - 0x10000) % 0x400 < 0x10000 := by omega
    rw [if_neg hbmp, ← List.singleton_append, textBytes_append, textBytes_unit hhi,
      textBytes_unit hlo,
      if_neg (by omega), if_neg (by omega)]
    unfold dartBytes Codec.encode
    rw [if_neg hsur, if_neg h, if_neg (by omega), if_neg hbmp]
    refine .inr ⟨by simp, fun heq => ?_⟩
    have hbyte := congrArg UInt8.toNat (Option.some.inj heq)
    rw [toNat_byte (by omega), toNat_byte (by omega)] at hbyte
    omega

/-- An ASCII character is the same byte in both. -/
theorem rawBytes_ascii {c : ℕ} (h : c < 0x80) : rawBytes c = dartBytes c := by
  have hsur : ¬ Surrogate c := fun hs => by
    have := hs.1
    omega
  unfold rawBytes units dartBytes Codec.encode
  rw [if_pos (by omega), textBytes_unit (by omega), if_pos (by omega), if_neg hsur, if_pos h]

/-- A character takes no more bytes as units than in UTF-8. -/
theorem length_flatMap_rawBytes_le {cs : List ℕ} (hcs : ∀ c ∈ cs, c < 0x110000) :
    (cs.flatMap rawBytes).length ≤ (cs.flatMap dartBytes).length := by
  induction cs with
  | nil => exact Nat.le_refl _
  | cons c cs ih =>
    have hrest := ih fun d hd => hcs d (List.mem_cons_of_mem _ hd)
    have hc : (rawBytes c).length ≤ (dartBytes c).length := by
      by_cases h : c < 0x80
      · rw [rawBytes_ascii h]
      · rcases rawBytes_ne h (hcs c List.mem_cons_self) with hlt | ⟨heq, _⟩
        · exact hlt.le
        · exact heq.le
    rw [List.flatMap_cons, List.flatMap_cons, List.length_append, List.length_append]
    exact Nat.add_le_add hc hrest

/-- The two byte sequences agree on ASCII only. -/
theorem flatMap_rawBytes_eq_iff {cs : List ℕ} (hcs : ∀ c ∈ cs, c < 0x110000) :
    cs.flatMap rawBytes = cs.flatMap dartBytes ↔ ∀ c ∈ cs, c < 0x80 := by
  induction cs with
  | nil => simp
  | cons c cs ih =>
    have hcs' : ∀ d ∈ cs, d < 0x110000 := fun d hd => hcs d (List.mem_cons_of_mem _ hd)
    rw [List.forall_mem_cons, List.flatMap_cons, List.flatMap_cons, ← ih hcs']
    by_cases h : c < 0x80
    · rw [rawBytes_ascii h, List.append_cancel_left_eq]
      exact ⟨fun heq => ⟨h, heq⟩, fun heq => heq.2⟩
    · refine ⟨fun heq => ?_, fun heq => absurd heq.1 h⟩
      exfalso
      rcases rawBytes_ne h (hcs c List.mem_cons_self) with hlt | ⟨hlen, hne⟩
      · have hle := length_flatMap_rawBytes_le hcs'
        have := congrArg List.length heq
        rw [List.length_append, List.length_append] at this
        omega
      · exact hne (congrArg List.head? (List.append_inj heq hlen).1)

/-- `toArray` gives the UTF-8 bytes of a text exactly where it is ASCII. -/
theorem textBytes_eq_utf8Encoder_iff (t : Utf16) :
    textBytes t = utf8Encoder t ↔ ∀ u ∈ t, u.toNat < 0x80 := by
  rw [utf8Encoder_eq, ← codePoints_ascii_iff, ← flatMap_rawBytes_eq_iff (codePoints_lt t),
    ← textBytes_ofCodePoints, ofCodePoints_codePoints]

/-- So does a text. -/
theorem length_textBytes_le (t : Utf16) : (textBytes t).length ≤ (utf8Encoder t).length := by
  have h := length_flatMap_rawBytes_le (codePoints_lt t)
  rwa [← textBytes_ofCodePoints, ofCodePoints_codePoints, ← utf8Encoder_eq] at h

/-- An ASCII unit is one byte. -/
theorem textBytes_cons {u : UInt16} (hu : u.toNat < 0x80) (t : Utf16) :
    textBytes (u :: t) = UInt8.ofNat u.toNat :: textBytes t := by
  have hunit := textBytes_unit (n := u.toNat) (by omega)
  rw [UInt16.ofNat_toNat, if_pos (by omega)] at hunit
  rw [← List.singleton_append, textBytes_append, hunit]
  rfl

/-- An ASCII text has as many bytes as units. -/
theorem length_textBytes {t : Utf16} (h : ∀ u ∈ t, u.toNat < 0x80) :
    (textBytes t).length = t.length := by
  induction t with
  | nil => rfl
  | cons u t ih =>
    rw [textBytes_cons (h u List.mem_cons_self), List.length_cons, List.length_cons,
      ih fun v hv => h v (List.mem_cons_of_mem _ hv)]

/-- The receiver recovers an ASCII text. -/
theorem utf8ArrayToStr_textBytes {t : Utf16} (h : ∀ u ∈ t, u.toNat < 0x80) :
    utf8ArrayToStr (textBytes t) = t := by
  induction t with
  | nil => rfl
  | cons u t ih =>
    have hu : u.toNat < 0x80 := h u List.mem_cons_self
    have hval : (UInt8.ofNat u.toNat).toNat = u.toNat := toNat_byte (by omega)
    rw [textBytes_cons hu, utf8ArrayToStr.eq_def]
    dsimp only
    rw [hval, if_pos (by omega), UInt16.ofNat_toNat,
      ih fun v hv => h v (List.mem_cons_of_mem _ hv)]

/-! ## The buffers of a call -/

/-- The objects of one state are in another. -/
def HeapKept (vm vm' : VM) : Prop := ∀ r o, vm.heap.obj? r = some o → vm'.heap.obj? r = some o

/-- Objects that stay over two steps stay over both. -/
theorem HeapKept.trans {vm₁ vm₂ vm₃ : VM} (h₁₂ : HeapKept vm₁ vm₂) (h₂₃ : HeapKept vm₂ vm₃) :
    HeapKept vm₁ vm₃ := fun r o ho => h₂₃ r o (h₁₂ r o ho)

/-- A new cell replaces no object. -/
theorem heapKept_alloc (vm : VM) (b : Body) : HeapKept vm (vm.alloc b) := by
  intro r o ho
  have hne : r ≠ vm.heap.length := Nat.ne_of_lt (Heap.lt_length_of_obj? ho)
  show Heap.obj? (Memory.alloc vm.heap b) r = some o
  rw [Heap.obj?_alloc, if_neg hne, ho]

/-- The length that crosses for a text. -/
def crossedLength (t : Utf16) : ℤ := (Int32.ofInt (textBytes t).length).toInt

/-- A value is the buffer that `newArrayBufferCopy` makes for a text. -/
def Holds (vm : VM) (v : JSValue) (t : Utf16) : Prop :=
  (crossedLength t < 0 → v = .exception) ∧
    (0 ≤ crossedLength t → ∃ r o, v = .object r ∧ vm.heap.obj? r = some o ∧
      o.cls = .arrayBuffer ((textBytes t).take (crossedLength t).toNat))

/-- A value that holds a text holds it as long as its object stays. -/
theorem Holds.mono {vm vm' : VM} (hkept : HeapKept vm vm') {v : JSValue} {t : Utf16}
    (h : Holds vm v t) : Holds vm' v t := by
  refine ⟨h.1, fun hlen => ?_⟩
  obtain ⟨r, o, hv, ho, hcls⟩ := h.2 hlen
  exact ⟨r, o, hv, hkept r o ho, hcls⟩

/-- `JS_NewArrayBufferCopy` makes an object that holds the text. -/
theorem newArrayBufferCopy_holds (proto : Ref) (t : Utf16) (vm : VM) :
    ∃ v vm', newArrayBufferCopy proto (textBytes t) (textBytes t).length vm = .ok v vm' ∧
      Holds vm' v t ∧ HeapKept vm vm' := by
  by_cases hneg : crossedLength t < 0
  · have heq : newArrayBufferCopy proto (textBytes t) (textBytes t).length
        = ffi .exception (throw (.error "invalid array buffer length")) := if_pos hneg
    rw [heq]
    exact ⟨_, _, rfl, ⟨fun _ => rfl, fun h => absurd hneg (Int.not_lt.2 h)⟩, fun _ _ ho => ho⟩
  · have heq : newArrayBufferCopy proto (textBytes t) (textBytes t).length = newCell .object
        (.obj (.fresh (.arrayBuffer ((textBytes t).take (crossedLength t).toNat)) proto)) :=
          if_neg hneg
    rw [heq]
    refine ⟨_, _, rfl, ⟨fun h => absurd h hneg, fun _ =>
      ⟨_, .fresh (.arrayBuffer ((textBytes t).take (crossedLength t).toNat)) proto, rfl, ?_, rfl⟩⟩,
      heapKept_alloc _ _⟩
    show Heap.obj? (Memory.alloc vm.heap _) vm.heap.length = some _
    rw [Heap.obj?_alloc, if_pos rfl]

/-- A text arrives as UTF-8 where it is ASCII and a buffer can hold it. -/
def Sendable (t : Utf16) : Prop := t.length < 2 ^ 31 ∧ ∀ u ∈ t, u.toNat < 0x80

/-- The buffer is UTF-8 exactly for the texts that can be sent. -/
theorem Holds.utf8_iff {vm : VM} {v : JSValue} {t : Utf16} (h : Holds vm v t) :
    (∃ r o, v = .object r ∧ vm.heap.obj? r = some o ∧ o.cls = .arrayBuffer (utf8Encoder t)) ↔
      Sendable t := by
  have hlt : crossedLength t < 2 ^ 31 := Int32.toInt_lt _
  constructor
  · rintro ⟨r, o, rfl, ho, hcls⟩
    have hpos : 0 ≤ crossedLength t := by
      by_contra hneg
      cases h.1 (Int.not_le.1 hneg)
    obtain ⟨r', o', heq, ho', hcls'⟩ := h.2 hpos
    cases heq
    rw [ho] at ho'
    cases ho'
    rw [hcls] at hcls'
    have htake : utf8Encoder t = (textBytes t).take (crossedLength t).toNat :=
      ObjClass.arrayBuffer.inj hcls'
    -- nothing was cut off, since UTF-8 is not shorter
    have hle : (textBytes t).length ≤ (crossedLength t).toNat := by
      have hlen := congrArg List.length htake
      rw [List.length_take] at hlen
      have := length_textBytes_le t
      omega
    rw [List.take_of_length_le hle] at htake
    have hascii := (textBytes_eq_utf8Encoder_iff t).1 htake.symm
    rw [length_textBytes hascii] at hle
    exact ⟨by omega, hascii⟩
  · rintro ⟨hlen, hascii⟩
    have hcrossed : crossedLength t = t.length := by
      unfold crossedLength
      rw [length_textBytes hascii, toInt_ofInt_length hlen]
    obtain ⟨r, o, hv, ho, hcls⟩ := h.2 (by rw [hcrossed]; exact Int.natCast_nonneg _)
    refine ⟨r, o, hv, ho, ?_⟩
    rw [hcls, hcrossed, Int.toNat_natCast, ← length_textBytes hascii, List.take_length,
      (textBytes_eq_utf8Encoder_iff t).2 hascii]

section

variable {Object : Type} {jsonEncode : Object → Except DartError Utf16} {proto : Ref} {env : Env}
  {nulls : NullArgument}

/-- The loop makes a buffer for each text, and keeps what there is. -/
theorem toUint8ArrayParams_holds (proto : Ref) {params : List Object} {ts : List Utf16}
    (hts : List.Forall₂ (fun p t => jsonEncode p = .ok t) params ts) (mem : Native) (vm : VM) :
    ∃ argvs mem' vm' vs, toUint8ArrayParams jsonEncode proto params mem vm = .ok (argvs, mem') vm' ∧
      argvs.mapM mem'.values = some vs ∧ List.Forall₂ (Holds vm') vs ts ∧
      (∀ a v, mem.values a = some v → mem'.values a = some v) ∧ HeapKept vm vm' := by
  induction hts generalizing mem vm with
  | nil => exact ⟨[], mem, vm, [], rfl, rfl, .nil, fun _ _ h => h, fun _ _ h => h⟩
  | @cons p t params ts ht _ ih =>
    obtain ⟨v, vm₁, hnew, hholds, hkept₁⟩ := newArrayBufferCopy_holds proto t vm
    obtain ⟨argvs, mem', vm', vs, hloop, hvs, hall, hvalues, hkept₂⟩ := ih (mem.storeValues [v]) vm₁
    refine ⟨mem.free :: argvs, mem', vm', v :: vs, ?_, ?_, .cons (hholds.mono hkept₂) hall,
      fun a w h => hvalues a w (storeValues_kept mem [v] h), hkept₁.trans hkept₂⟩
    · have htext : liftExcept (jsonEncode p) vm = .ok t vm := by rw [ht]; rfl
      have harray : liftExcept (toArray t none) vm = .ok (t.flatMap unitInts) vm := rfl
      have hlen : (t.flatMap unitInts).length = (textBytes t).length := (List.length_map _).symm
      rw [toUint8ArrayParams, bind_of_ok htext, bind_of_ok harray, hlen,
        show storedBytes (t.flatMap unitInts) = textBytes t from rfl, bind_of_ok hnew,
        bind_of_ok hloop]
      rfl
    · rw [List.mapM_cons, hvalues _ _ (storeValues_singleton mem v), hvs]
      rfl

/-- A buffer has one content. -/
theorem BufferAt.unique {h : Handover} {mem : Native} {vm : VM} {i : ℕ} {bs cs : Bytes}
    (hbs : BufferAt h mem vm i bs) (hcs : BufferAt h mem vm i cs) : bs = cs := by
  obtain ⟨r, o, hr, ho, hcls⟩ := hbs
  obtain ⟨r', o', hr', ho', hcls'⟩ := hcs
  rw [hr] at hr'
  cases hr'
  rw [ho] at ho'
  cases ho'
  exact ObjClass.arrayBuffer.inj (hcls.symm.trans hcls')

/-- A function stays one. -/
theorem HeapKept.isFunction {vm vm' : VM} (hkept : HeapKept vm vm') {f : JSValue}
    (hf : isFunction env vm.heap f) : isFunction env vm'.heap f := by
  cases f with
  | object r =>
    unfold QuickjsDart.isFunction at hf ⊢
    dsimp only at hf ⊢
    cases ho : vm.heap.obj? r with
    | none => rw [ho] at hf; cases hf
    | some o =>
      rw [ho] at hf
      rw [hkept r o ho]
      exact hf
  | _ => cases hf

/-- What `callJSEncode` hands over. -/
theorem handCallJSEncode_holds {f : JSValue} {vm : VM} (hf : isFunction env vm.heap f)
    {params : List Object} {ts : List Utf16}
    (hts : List.Forall₂ (fun p t => jsonEncode p = .ok t) params ts) (mem : Native)
    (hlen : params.length < 2 ^ 31) :
    ∃ h mem' vm', handCallJSEncode jsonEncode proto env nulls f params mem vm = .ok (h, mem') vm' ∧
      h.target = .call f .null ∧ h.argc.toInt = ts.length ∧
      ∀ (i : ℕ) t, ts[i]? = some t →
        ∃ v, mem'.values (h.argv + valueSize * i) = some v ∧ Holds vm' v t := by
  obtain ⟨argvs, mem₁, vm', vs, hloop, hvs, hall, -, hkept⟩ :=
    toUint8ArrayParams_holds proto hts mem vm
  obtain ⟨hvslen, hget⟩ := getElem?_of_mapM hvs
  have hlenargvs : argvs.length = ts.length := by rw [← hvslen, hall.length_eq]
  obtain ⟨h, mem', hpath, htarget, hargc, hvalues⟩ :=
    handCallJS_passes env nulls (hkept.isFunction hf) (some argvs) (live_of_mapM hvs)
      (by rwa [Option.getD_some, hlenargvs, ← hts.length_eq])
  refine ⟨h, mem', vm', ?_, htarget, by rw [hargc, Option.getD_some, hlenargvs], fun i t hi => ?_⟩
  · unfold handCallJSEncode catchTypeError
    rw [if_pos hf, bind_of_ok hloop]
    dsimp only
    rw [hpath]
  · have hi' : i < ts.length := (List.getElem?_eq_some_iff.1 hi).1
    have hargv : argvs[i]? = some argvs[i] := List.getElem?_eq_getElem (by rwa [hlenargvs])
    have hv : vs[i]? = some vs[i] := List.getElem?_eq_getElem (by rwa [hall.length_eq])
    refine ⟨vs[i], ?_, ?_⟩
    · rw [hvalues i _ hargv, ← hget i _ hargv, hv]
    · have := hall.get (i := i) (by rwa [hall.length_eq]) hi'
      rw [List.getElem?_eq_getElem hi'] at hi
      cases hi
      exact this

/-- `callJSEncode` sends UTF-8 where every text is ASCII and fits. -/
theorem callJSEncode_transports_iff {f : JSValue} {vm : VM} (hf : isFunction env vm.heap f)
    {params : List Object} {ts : List Utf16}
    (hts : List.Forall₂ (fun p t => jsonEncode p = .ok t) params ts) (mem : Native) :
    (∃ h mem' vm', handCallJSEncode jsonEncode proto env nulls f params mem vm = .ok (h, mem') vm' ∧
        Transports f ts h mem' vm') ↔
      params.length < 2 ^ 31 ∧ ∀ t ∈ ts, Sendable t := by
  constructor
  · rintro ⟨h, mem', vm', hpath, htransports⟩
    have hlen : params.length < 2 ^ 31 := by
      have := htransports.argc ▸ h.argc.toInt_lt
      rw [hts.length_eq]
      omega
    refine ⟨hlen, fun t ht => ?_⟩
    obtain ⟨h₂, mem₂, vm₂, hpath₂, -, -, hholds⟩ := handCallJSEncode_holds hf hts mem hlen
    rw [hpath] at hpath₂
    cases hpath₂
    obtain ⟨i, hi⟩ := List.getElem?_of_mem ht
    obtain ⟨v, hv, hheld⟩ := hholds i t hi
    obtain ⟨r, o, hr, ho, hcls⟩ := htransports.bytes i t hi
    rw [hv] at hr
    exact hheld.utf8_iff.1 ⟨r, o, Option.some.inj hr, ho, hcls⟩
  · rintro ⟨hlen, hsend⟩
    obtain ⟨h, mem', vm', hpath, htarget, hargc, hholds⟩ := handCallJSEncode_holds hf hts mem hlen
    have hbytes : ∀ (i : ℕ) t, ts[i]? = some t → BufferAt h mem' vm' i (utf8Encoder t) := by
      intro i t hi
      obtain ⟨v, hv, hheld⟩ := hholds i t hi
      obtain ⟨r, o, rfl, ho, hcls⟩ := hheld.utf8_iff.2 (hsend t (List.mem_of_getElem? hi))
      exact ⟨r, o, hv, ho, hcls⟩
    have hrecovers : ∀ (i : ℕ) t bs, ts[i]? = some t → BufferAt h mem' vm' i bs →
        utf8ArrayToStr bs = t := by
      intro i t bs hi hbs
      have hascii := (hsend t (List.mem_of_getElem? hi)).2
      rw [hbs.unique (hbytes i t hi), ← (textBytes_eq_utf8Encoder_iff t).2 hascii,
        utf8ArrayToStr_textBytes hascii]
    refine ⟨h, mem', vm', hpath, htarget, hargc, hbytes, hrecovers, ?_⟩
    rintro i j t u bs cs hi hj hbs hcs hne rfl
    exact hne ((hrecovers i t bs hi hbs).symm.trans (hrecovers j u bs hj hcs))

/-- `jsonEncode` on strings with nothing to escape. -/
def quoted (s : Utf16) : Except DartError Utf16 := .ok (0x22 :: s ++ [0x22])

/-- An ASCII text can be sent. -/
theorem sendable_letters : Sendable [0x22, 0x41, 0x41, 0x22] := ⟨by decide, by simp⟩

/-- Two letters in quotes are sent. -/
theorem callJSEncode_transports_iff_ascii :
    ∃ h mem' vm', handCallJSEncode quoted objectPrototype Env.bare .throws (.object 8)
        [[0x41, 0x41]] Native.two VM.bare = .ok (h, mem') vm' ∧
      Transports (.object 8) [[0x22, 0x41, 0x41, 0x22]] h mem' vm' :=
  (callJSEncode_transports_iff (by decide) (.cons rfl .nil) Native.two).2
    ⟨by decide, List.forall_mem_singleton.2 sendable_letters⟩

/-- The text of the character `U+00E9` does not arrive, and `U+4141` has the bytes of two
letters. -/
theorem callJSEncode_not_utf8 :
    (¬ ∃ h mem' vm', handCallJSEncode quoted objectPrototype Env.bare .throws (.object 8)
        [[0xE9]] Native.two VM.bare = .ok (h, mem') vm' ∧
      Transports (.object 8) [[0x22, 0xE9, 0x22]] h mem' vm') ∧
      textBytes [0x22, 0x4141, 0x22] = textBytes [0x22, 0x41, 0x41, 0x22] := by
  refine ⟨?_, by decide⟩
  rintro ⟨h, mem', vm', hpath, htransports⟩
  obtain ⟨h₂, mem₂, vm₂, hpath₂, -, -, hholds⟩ := handCallJSEncode_holds
    (show isFunction Env.bare VM.bare.heap (.object 8) by decide)
    (show List.Forall₂ (fun p t => quoted p = .ok t) [[0xE9]] [[0x22, 0xE9, 0x22]]
      from .cons rfl .nil)
    Native.two (by decide)
  rw [hpath] at hpath₂
  cases hpath₂
  obtain ⟨v, hv, hheld⟩ := hholds 0 _ rfl
  obtain ⟨r, o, hr, ho, hcls⟩ := htransports.bytes 0 _ rfl
  rw [hv] at hr
  have hsend : Sendable [0x22, 0xE9, 0x22] :=
    hheld.utf8_iff.1 ⟨r, o, Option.some.inj hr, ho, hcls⟩
  exact absurd (hsend.2 0xE9 (List.mem_cons_of_mem _ List.mem_cons_self)) (by decide)

end

end QuickjsDart
