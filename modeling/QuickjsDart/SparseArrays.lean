import QuickjsDart.ShapeRuns

/-!
# Sparse arrays that become shorter

`set_array_length` for an array whose elements are properties of its shape. Only elements behind the
length that is left go, and a length above the one that was asked for is held by an element that
cannot be deleted (`setArrayLength_cuts`).

When the length shrinks by more than there are properties, it goes over the entries of the shape and
deletes those behind the new length. But the deletions compact the shape on the way, the entries
move up below the loop's counter, and the loop passes them over: of `k` elements behind the new
length, which all may be deleted, only the first `max 8 ((k + 1) / 2)` are
(`setArrayLength_sparse`).
-/

namespace QuickjsDart

namespace Shapes

variable {V : Type}

/-! ## The loops -/

/-- Numbers as values and as atoms: `JS_NewUint32`, `JS_ToUint32`, `JS_NewAtomUInt32` and
`JS_AtomIsArrayIndex`. -/
structure Numbers (V : Type) where
  newUint32 : ℕ → V
  toUint32 : V → ℕ
  newAtom : ℕ → ℕ
  arrayIndex : ℕ → Option ℕ
  toUint32_lt : ∀ v, toUint32 v < 2 ^ 32
  newAtom_ne : ∀ n, newAtom n ≠ 0
  arrayIndex_newAtom : ∀ n < 2 ^ 32 - 1, arrayIndex (newAtom n) = some n
  arrayIndex_length : arrayIndex atomLength = none

/-- An element at or behind a length. `index` is `JS_AtomIsArrayIndex`. -/
def beyond (index : ℕ → Option ℕ) (curLen atom : ℕ) : Bool :=
  atom ≠ 0 && (index atom).any fun i => curLen ≤ i

/-- The elements one by one from the last, until one cannot be deleted. -/
def Runtime.deleteDown (newAtom : ℕ → ℕ) (undefined : V) (p len : ℕ) :
    ℕ → Runtime V → Option (ℕ × Runtime V)
  | 0, rt => some (0, rt)
  | curLen + 1, rt =>
    if len < curLen + 1 then do
      let (gone, rt) ← rt.deleteProperty undefined p (newAtom curLen)
      if gone then Runtime.deleteDown newAtom undefined p len curLen rt else some (curLen + 1, rt)
    else some (curLen + 1, rt)

/-- The first pass over the entries: an element that cannot be deleted keeps the length above it. -/
def holdLength (index : ℕ → Option ℕ) (curLen : ℕ) (pr : ShapeProperty) : ℕ :=
  if beyond index curLen pr.atom && !configurable pr.flags then (index pr.atom).getD 0 + 1
  else curLen

/-- The length that an array keeps when it is asked for less: fixed elements hold it up. -/
def Shape.heldLength (index : ℕ → Option ℕ) (sh : Shape) (len : ℕ) : ℕ :=
  sh.prop.foldl (holdLength index) len

/-- The second pass. The shape is read anew in each turn, and the counter goes on. -/
def Runtime.cutLoop (index : ℕ → Option ℕ) (undefined : V) (p curLen : ℕ) :
    ℕ → ℕ → Runtime V → Option (Runtime V)
  | 0, _, _ => none
  | fuel + 1, i, rt => do
    let o ← rt.obj? p
    let sh ← rt.shape? o.shape
    match sh.prop[i]? with
    | none => some rt
    | some pr =>
      if beyond index curLen pr.atom then
        let (_, rt) ← rt.deleteProperty undefined p pr.atom
        Runtime.cutLoop index undefined p curLen fuel (i + 1) rt
      else Runtime.cutLoop index undefined p curLen fuel (i + 1) rt

/-- The elements behind the new length go, and the length that is left is given. -/
def Runtime.cutElements (num : Numbers V) (undefined : V) (rt : Runtime V) (p : ℕ) (sh : Shape)
    (oldLen len : ℕ) : Option (ℕ × Runtime V) :=
  if len < oldLen then
    if oldLen - len ≤ sh.prop.length then
      Runtime.deleteDown num.newAtom undefined p len oldLen rt
    else
      let curLen := sh.heldLength num.arrayIndex len
      (Runtime.cutLoop num.arrayIndex undefined p curLen (sh.prop.length + 1) 0 rt).map (curLen, ·)
  else some (len, rt)

/-- `set_array_length` for an array that is not fast. The length is in the first slot; the answer is
whether the new one could be reached. -/
def Runtime.setArrayLength (num : Numbers V) (undefined : V) (rt : Runtime V) (p len : ℕ) :
    Option (Bool × Runtime V) := do
  let o ← rt.obj? p
  let sh ← rt.shape? o.shape
  let old ← o.prop[0]?.join
  let (curLen, rt) ← rt.cutElements num undefined p sh (num.toUint32 old) len
  let o ← rt.obj? p
  if 0 < o.prop.length then
    some (curLen ≤ len, rt.setObj p { o with prop := o.prop.set 0 (some (num.newUint32 curLen)) })
  else none

/-- The second loop on names and flags. -/
def cutContents (index : ℕ → Option ℕ) (curLen : ℕ) : ℕ → ℕ → List (ℕ × ℕ) → List (ℕ × ℕ)
  | 0, _, cs => cs
  | fuel + 1, i, cs =>
    match cs[i]? with
    | none => cs
    | some c =>
      if beyond index curLen c.1 then cutContents index curLen fuel (i + 1) (dropEntry cs i)
      else cutContents index curLen fuel (i + 1) cs

variable {index : ℕ → Option ℕ} {rt rt' : Runtime V} {p curLen len : ℕ} {o : PropObj V} {sh : Shape}

/-! ## The loop on shapes is the loop on names -/

/-- What is beyond a length is a name. -/
theorem ne_zero_of_beyond {atom : ℕ} (h : beyond index curLen atom = true) : atom ≠ 0 := by
  rw [beyond, Bool.and_eq_true, decide_eq_true_eq] at h
  exact h.1

/-- What is beyond a length is beyond a shorter one. -/
theorem beyond_of_le {atom : ℕ} (hle : len ≤ curLen) (h : beyond index curLen atom = true) :
    beyond index len atom = true := by
  rw [beyond, Bool.and_eq_true] at h ⊢
  obtain ⟨i, hi, hcur⟩ := (Option.any_eq_true _ _).1 h.2
  have hlen : len ≤ i := hle.trans (of_decide_eq_true hcur)
  exact ⟨h.1, (Option.any_eq_true _ _).2 ⟨i, hi, decide_eq_true hlen⟩⟩

/-- A deletion brings nothing but holes. -/
theorem mem_dropEntry {cs : List (ℕ × ℕ)} {i : ℕ} {c : ℕ × ℕ} (hc : c ∈ dropEntry cs i) :
    c ∈ cs ∨ c = (0, 0) := by
  rcases dropEntry_cases cs i with h | h
  · exact List.mem_or_eq_of_mem_set (List.mem_of_mem_filter (h ▸ hc))
  · exact List.mem_or_eq_of_mem_set (h ▸ hc)

/-- A compaction loses no name. -/
theorem names_dropEntry (cs : List (ℕ × ℕ)) (i : ℕ) :
    names (dropEntry cs i) = names (cs.set i (0, 0)) := by
  rcases dropEntry_cases cs i with h | h
  · rw [h, names_filter]
  · rw [h]

/-- A deletion makes nothing longer. -/
theorem length_dropEntry_le (cs : List (ℕ × ℕ)) (i : ℕ) : (dropEntry cs i).length ≤ cs.length := by
  rcases dropEntry_cases cs i with h | h
  · rw [h]
    exact (List.length_filter_le _ _).trans_eq List.length_set
  · rw [h, List.length_set]

/-- The name of a deleted entry is gone. -/
theorem not_mem_names_dropEntry {cs : List (ℕ × ℕ)} {i : ℕ} {c : ℕ × ℕ} (hi : cs[i]? = some c)
    (hc : c.1 ≠ 0) (hnodup : (names cs).Nodup) : c.1 ∉ names (dropEntry cs i) := by
  rw [names_dropEntry]
  intro hmem
  obtain ⟨-, flags, hmem⟩ := mem_names.1 hmem
  obtain ⟨j, hj⟩ := List.getElem?_of_mem hmem
  rw [List.getElem?_set] at hj
  split_ifs at hj with hij
  · exact hc (congrArg Prod.fst (Option.some_inj.1 hj)).symm
  · exact hij (names_index hnodup hi hj hc rfl)

/-- A pass brings no names. -/
theorem names_cutContents (curLen fuel i : ℕ) (cs : List (ℕ × ℕ)) :
    names (cutContents index curLen fuel i cs) ⊆ names cs := by
  induction fuel generalizing i cs with
  | zero => exact List.Subset.refl _
  | succ fuel ih =>
    rw [cutContents]
    cases cs[i]? with
    | none => exact List.Subset.refl _
    | some c =>
      dsimp only
      split_ifs
      · have hdrop : names (dropEntry cs i) ⊆ names cs :=
          (names_dropEntry cs i).symm ▸ names_set_zero.subset
        exact fun a ha => hdrop (ih (i + 1) (dropEntry cs i) ha)
      · exact ih (i + 1) cs

/-- The properties after an operation, in the shape that the object has then. -/
theorem Updates.entries_eq {x : AbsObj V} (h : Updates rt rt' p (some x)) (ho : rt'.obj? p = some o)
    (hsh : rt'.shape? o.shape = some sh) :
    sh.proto = x.proto ∧ entries sh.contents o.prop = x.props := by
  obtain rfl : x = ⟨sh.proto, entries sh.contents o.prop⟩ :=
    Option.some_inj.1 (h.self.symm.trans (Runtime.view_eq ho hsh))
  exact ⟨rfl, rfl⟩

/-- What is not looked for may be taken out first. -/
theorem filter_names_of_not_mem {ns : List ℕ} {atom : ℕ} (h : atom ∉ ns) (es : List (ℕ × ℕ × V)) :
    ((es.filter fun e => e.1 ≠ atom).filter fun e => e.1 ∈ ns) = es.filter fun e => e.1 ∈ ns := by
  rw [List.filter_filter]
  refine List.filter_congr fun e _ => ?_
  by_cases he : e.1 = atom
  · simp [he, h]
  · simp [he]

/-- The second loop ends, and deletes what the loop on names deletes. -/
theorem Inv.cutLoop (hinv : Inv 0 none rt) (ho : rt.obj? p = some o)
    (hsh : rt.shape? o.shape = some sh) (undefined : V)
    (hconf : ∀ c ∈ sh.contents, beyond index curLen c.1 = true → configurable c.2 = true)
    {fuel i : ℕ} (hfuel : sh.prop.length - i < fuel) :
    ∃ rt' o' sh', Runtime.cutLoop index undefined p curLen fuel i rt = some rt' ∧
      rt'.obj? p = some o' ∧ rt'.shape? o'.shape = some sh' ∧
      sh'.contents = cutContents index curLen fuel i sh.contents ∧
      Updates rt rt' p (some ⟨sh.proto,
        (entries sh.contents o.prop).filter fun e => e.1 ∈ names sh'.contents⟩) := by
  induction fuel generalizing rt o sh i with
  | zero => omega
  | succ fuel ih =>
    rw [Runtime.cutLoop, cutContents]
    simp only [ho, hsh, Option.bind_eq_bind, Option.bind_some]
    cases hi : sh.prop[i]? with
    | none =>
      have hc : sh.contents[i]? = none := by simp [Shape.contents, hi]
      refine ⟨rt, o, sh, rfl, ho, hsh, by rw [hc], hinv.updates_self ?_⟩
      rw [List.filter_eq_self.2 fun e he => decide_eq_true (entries_fst_mem he)]
      exact Runtime.view_eq ho hsh
    | some pr =>
      have hc : sh.contents[i]? = some pr.content := by simp [Shape.contents, hi]
      obtain ⟨hlt, -⟩ := List.getElem?_eq_some_iff.1 hi
      rw [hc]
      dsimp only
      by_cases hbeyond : beyond index curLen pr.atom = true
      · have hatom : pr.atom ≠ 0 := ne_zero_of_beyond hbeyond
        obtain ⟨rt₁, hrun, hupd, o₁, sh₁, ho₁, hsh₁, hcont⟩ :=
          hinv.deleteAt ho hsh hi hatom (hconf _ (List.mem_of_getElem? hc) hbeyond) undefined
        obtain ⟨hproto, hent⟩ := hupd.entries_eq ho₁ hsh₁
        have hconf₁ : ∀ c ∈ sh₁.contents, beyond index curLen c.1 = true →
            configurable c.2 = true := by
          intro c hmem hb
          rcases mem_dropEntry (hcont ▸ hmem) with hmem | rfl
          · exact hconf c hmem hb
          · simp [beyond] at hb
        have hlen : sh₁.prop.length ≤ sh.prop.length := by
          have hle := length_dropEntry_le sh.contents i
          rw [← hcont] at hle
          simpa [Shape.contents] using hle
        obtain ⟨rt', o', sh', hrun', ho', hsh', hcont', hupd'⟩ :=
          ih hupd.inv ho₁ hsh₁ hconf₁ (i := i + 1) (by omega)
        have hgone : pr.atom ∉ names sh'.contents := fun hmem =>
          not_mem_names_dropEntry hc hatom (hinv.shapes _ _ hsh).1.nodup
            (hcont ▸ names_cutContents curLen fuel (i + 1) _ (hcont' ▸ hmem))
        have hb : beyond index curLen pr.content.1 = true := hbeyond
        rw [if_pos hbeyond, if_pos hb, ← hcont, hrun]
        rw [hproto, hent, filter_names_of_not_mem hgone] at hupd'
        exact ⟨rt', o', sh', hrun', ho', hsh', hcont', hupd.trans hupd'⟩
      · have hb : ¬beyond index curLen pr.content.1 = true := hbeyond
        rw [if_neg hbeyond, if_neg hb]
        exact ih hinv ho hsh hconf (by omega)

/-! ## What may go -/

/-- What shortening may do to the properties. `curLen` is the length that is left: only elements
behind it go, and it is above `len` only for an element that cannot be deleted. -/
structure Cut (index : ℕ → Option ℕ) (len curLen : ℕ) (es es' : List (ℕ × ℕ × V)) : Prop where
  sublist : es'.Sublist es
  gone : ∀ e ∈ es, e ∉ es' → configurable e.2.1 = true ∧ beyond index curLen e.1 = true
  le : len ≤ curLen
  held : len < curLen → ∃ e ∈ es', configurable e.2.1 = false ∧ index e.1 = some (curLen - 1)

/-- Nothing was cut. -/
theorem Cut.refl (es : List (ℕ × ℕ × V)) : Cut index len len es es :=
  ⟨List.Sublist.refl _, fun _ h hno => absurd h hno, le_rfl, fun h => absurd h (lt_irrefl _)⟩

/-- An entry in use has its value. -/
theorem entries_mem {cs : List (ℕ × ℕ)} {vals : List (Option V)} {c : ℕ × ℕ}
    (hwritten : Written cs vals) (hc : c ∈ cs) (hc0 : c.1 ≠ 0) :
    ∃ v, (c.1, c.2, v) ∈ entries cs vals := by
  induction cs generalizing vals with
  | nil => simp at hc
  | cons d cs ih =>
    have hwritten' : Written cs vals.tail := fun i e he he0 => by
      obtain ⟨v, hv⟩ := hwritten (i + 1) e he he0
      exact ⟨v, by simpa using hv⟩
    cases vals with
    | nil =>
      rcases List.mem_cons.1 hc with rfl | hc
      · obtain ⟨v, hv⟩ := hwritten 0 c rfl hc0
        simp at hv
      · obtain ⟨v, hv⟩ := ih hwritten' hc
        simp [entries] at hv
    | cons w vals =>
      rcases List.mem_cons.1 hc with rfl | hc
      · obtain ⟨v, hv⟩ := hwritten 0 c rfl hc0
        rw [List.getElem?_cons_zero, Option.some_inj] at hv
        exact ⟨v, by simp [entries, entryOf, hc0, hv]⟩
      · obtain ⟨v, hv⟩ := ih hwritten' hc
        exact ⟨v, List.mem_append_right _ hv⟩

/-- Properties of one name have the same flags. -/
theorem Inv.flags_eq {x : AbsObj V} (hinv : Inv 0 none rt) (hx : rt.view p = some x)
    {e e' : ℕ × ℕ × V} (he : e ∈ x.props) (he' : e' ∈ x.props) (heq : e.1 = e'.1) :
    e.2.1 = e'.2.1 := by
  obtain ⟨o, sh, ho, hsh, hwf, -, -, rfl⟩ := hinv.of_view hx
  obtain ⟨h0, hmem⟩ := mem_entries he
  obtain ⟨i, hi⟩ := List.getElem?_of_mem hmem
  obtain ⟨j, hj⟩ := List.getElem?_of_mem (mem_entries he').2
  have hij : i = j := names_index hwf.nodup hi hj h0 heq
  rw [hij, hj, Option.some_inj] at hi
  exact (congrArg Prod.snd hi).symm

/-- A deletion that succeeds takes only what has the name and may be deleted; else the property is
there and may not. -/
theorem Inv.delete_cases {x : AbsObj V} (hinv : Inv 0 none rt) (hx : rt.view p = some x)
    (atom : ℕ) :
    (∃ es, x.delete atom = (true, ⟨x.proto, es⟩) ∧ es.Sublist x.props ∧
        ∀ e ∈ x.props, e ∉ es → e.1 = atom ∧ configurable e.2.1 = true) ∨
      x.delete atom = (false, x) ∧ ∃ e ∈ x.props, e.1 = atom ∧ configurable e.2.1 = false := by
  unfold AbsObj.delete
  cases hfind : x.find? atom with
  | none =>
    exact .inl ⟨x.props, rfl, List.Sublist.refl _, fun _ h hno => absurd h hno⟩
  | some r =>
    obtain ⟨e, he, rfl⟩ := Option.map_eq_some_iff.1 hfind
    have hatom : e.1 = atom := by simpa using List.find?_some he
    have hmem : e ∈ x.props := List.mem_of_find?_eq_some he
    dsimp only
    split_ifs with hconf
    · refine .inl ⟨_, rfl, List.filter_sublist, fun e' he' hno => ?_⟩
      have hname : e'.1 = atom := by
        by_contra hne
        exact hno (List.mem_filter.2 ⟨he', decide_eq_true hne⟩)
      exact ⟨hname, hinv.flags_eq hx hmem he' (hatom.trans hname.symm) ▸ hconf⟩
    · exact .inr ⟨rfl, e, hmem, hatom, by simpa using hconf⟩

/-- The loop from the last element. -/
theorem Inv.deleteDown (num : Numbers V) (undefined : V) {x : AbsObj V} {f oldLen : ℕ}
    (hinv : Inv 0 none rt) (hx : rt.view p = some x) (hfirst : rt.first? p = some (atomLength, f))
    (hle : len ≤ oldLen) (hlt : oldLen < 2 ^ 32) :
    ∃ curLen rt' es, Runtime.deleteDown num.newAtom undefined p len oldLen rt = some (curLen, rt') ∧
      curLen ≤ oldLen ∧ Cut num.arrayIndex len curLen x.props es ∧
      Updates rt rt' p (some ⟨x.proto, es⟩) ∧ rt'.first? p = some (atomLength, f) := by
  have hsame : Updates rt rt p (some ⟨x.proto, x.props⟩) := hinv.updates_self hx
  induction oldLen generalizing rt x with
  | zero =>
    obtain rfl : len = 0 := Nat.le_zero.1 hle
    exact ⟨0, rt, x.props, rfl, le_rfl, Cut.refl _, hsame, hfirst⟩
  | succ n ih =>
    rw [Runtime.deleteDown]
    split_ifs with hlen
    · have hindex : num.arrayIndex (num.newAtom n) = some n :=
        num.arrayIndex_newAtom n (by omega)
      have hne : atomLength ≠ num.newAtom n := fun h => by
        rw [← h, num.arrayIndex_length] at hindex
        cases hindex
      obtain ⟨rt₁, hrun, hupd, hkeep⟩ := hinv.delete hx (num.newAtom_ne n) undefined
      have hfirst₁ := hkeep _ hfirst (by simp [atomLength]) hne
      rcases hinv.delete_cases hx (num.newAtom n) with
        ⟨es, hdel, hsub, hgone⟩ | ⟨hdel, e, he, hatom, hconf⟩
      · rw [hdel] at hrun hupd
        obtain ⟨curLen, rt', es', hrest, hcur, hcut, hupd', hfirst'⟩ :=
          ih hupd.inv hupd.self hfirst₁ (by omega) (by omega) (hupd.inv.updates_self hupd.self)
        refine ⟨curLen, rt', es', by simp [hrun, hrest], by omega,
          ⟨hcut.sublist.trans hsub, fun e he hno => ?_, hcut.le, hcut.held⟩, hupd.trans hupd',
          hfirst'⟩
        by_cases hes : e ∈ es
        · exact hcut.gone e hes hno
        · obtain ⟨hatom, hconf⟩ := hgone e he hes
          exact ⟨hconf, by simp [beyond, hatom, num.newAtom_ne, hindex, hcur]⟩
      · rw [hdel] at hrun hupd
        refine ⟨n + 1, rt₁, x.props, by simp [hrun], le_rfl,
          ⟨List.Sublist.refl _, fun _ h hno => absurd h hno, hle, fun _ => ⟨e, he, hconf, ?_⟩⟩,
          hupd, hfirst₁⟩
        rw [hatom, hindex, Nat.add_sub_cancel]
    · obtain rfl : len = n + 1 := by omega
      exact ⟨n + 1, rt, x.props, rfl, le_rfl, Cut.refl _, hsame, hfirst⟩

/-- One entry in the first pass. -/
theorem holdLength_cases (index : ℕ → Option ℕ) (curLen : ℕ) (pr : ShapeProperty) :
    (holdLength index curLen pr = curLen ∧
        (beyond index curLen pr.atom = true → configurable pr.flags = true)) ∨
      ∃ i, holdLength index curLen pr = i + 1 ∧ curLen ≤ i ∧ pr.atom ≠ 0 ∧
        index pr.atom = some i ∧ configurable pr.flags = false := by
  unfold holdLength
  split_ifs with hb
  · rw [Bool.and_eq_true, Bool.not_eq_true'] at hb
    obtain ⟨hb, hconf⟩ := hb
    have hatom := ne_zero_of_beyond hb
    rw [beyond, Bool.and_eq_true] at hb
    obtain ⟨i, hi, hle⟩ := (Option.any_eq_true _ _).1 hb.2
    exact .inr ⟨i, by simp [hi], of_decide_eq_true hle, hatom, hi, hconf⟩
  · refine .inl ⟨rfl, fun h => ?_⟩
    by_contra hconf
    exact hb (by simp [h, hconf])

/-- The first pass: the length grows only above an element that cannot be deleted, and all such
elements are below it. -/
theorem foldl_holdLength (index : ℕ → Option ℕ) (prop : List ShapeProperty) (len : ℕ) :
    len ≤ prop.foldl (holdLength index) len ∧
      (len < prop.foldl (holdLength index) len → ∃ pr ∈ prop, pr.atom ≠ 0 ∧
        configurable pr.flags = false ∧
        index pr.atom = some (prop.foldl (holdLength index) len - 1)) ∧
      ∀ pr ∈ prop, beyond index (prop.foldl (holdLength index) len) pr.atom = true →
        configurable pr.flags = true := by
  induction prop generalizing len with
  | nil => exact ⟨le_rfl, fun h => absurd h (lt_irrefl _), fun pr h => by simp at h⟩
  | cons pr prop ih =>
    rw [List.foldl_cons]
    obtain ⟨hle, hheld, hconf⟩ := ih (holdLength index len pr)
    set curLen := prop.foldl (holdLength index) (holdLength index len pr)
    rcases holdLength_cases index len pr with ⟨heq, hpr⟩ | ⟨i, heq, hi, hatom, hindex, hpr⟩
    · rw [heq] at hle hheld
      refine ⟨hle, fun h => ?_, fun q hq hb => ?_⟩
      · obtain ⟨q, hq, hrest⟩ := hheld h
        exact ⟨q, List.mem_cons_of_mem _ hq, hrest⟩
      · rcases List.mem_cons.1 hq with rfl | hq
        · exact hpr (beyond_of_le hle hb)
        · exact hconf q hq hb
    · rw [heq] at hle hheld
      refine ⟨by omega, fun _ => ?_, fun q hq hb => ?_⟩
      · by_cases h : i + 1 < curLen
        · obtain ⟨q, hq, hrest⟩ := hheld h
          exact ⟨q, List.mem_cons_of_mem _ hq, hrest⟩
        · have hcur : curLen - 1 = i := by omega
          exact ⟨pr, List.mem_cons_self, hatom, hpr, by rw [hcur, hindex]⟩
      · rcases List.mem_cons.1 hq with rfl | hq
        · simp [beyond, hindex] at hb
          omega
        · exact hconf q hq hb

/-- A deletion loses no other name. -/
theorem mem_names_dropEntry {cs : List (ℕ × ℕ)} {i atom : ℕ} {d : ℕ × ℕ} (hi : cs[i]? = some d)
    (hne : atom ≠ d.1) (hmem : atom ∈ names cs) : atom ∈ names (dropEntry cs i) := by
  rw [names_dropEntry]
  obtain ⟨hatom, flags, hmem⟩ := mem_names.1 hmem
  obtain ⟨j, hj⟩ := List.getElem?_of_mem hmem
  have hij : i ≠ j := fun h => by
    rw [h, hj, Option.some_inj] at hi
    exact hne (congrArg Prod.fst hi)
  refine mem_names.2 ⟨hatom, flags, List.mem_of_getElem? (i := j) ?_⟩
  rw [List.getElem?_set_ne hij, hj]

/-- The second pass keeps what is not behind the length, and the first entry in its place. -/
theorem cutContents_keeps (fuel i : ℕ) (cs : List (ℕ × ℕ)) {atom : ℕ}
    (hkeep : ¬beyond index curLen atom = true) :
    (atom ∈ names cs → atom ∈ names (cutContents index curLen fuel i cs)) ∧
      ∀ flags, cs[0]? = some (atom, flags) → atom ≠ 0 →
        (cutContents index curLen fuel i cs)[0]? = some (atom, flags) := by
  induction fuel generalizing i cs with
  | zero => exact ⟨id, fun _ h _ => h⟩
  | succ fuel ih =>
    rw [cutContents]
    cases hi : cs[i]? with
    | none => exact ⟨id, fun _ h _ => h⟩
    | some d =>
      dsimp only
      split_ifs with hd
      · have hne : atom ≠ d.1 := fun h => hkeep (h ▸ hd)
        obtain ⟨hmem, hfirst⟩ := ih (i + 1) (dropEntry cs i)
        exact ⟨fun h => hmem (mem_names_dropEntry hi hne h),
          fun flags h h0 => hfirst flags (dropEntry_first h h0 hi hne) h0⟩
      · exact ih (i + 1) cs

/-- The passes over the shape. -/
theorem Inv.cutShape (num : Numbers V) (undefined : V) {f : ℕ} (hinv : Inv 0 none rt)
    (ho : rt.obj? p = some o) (hsh : rt.shape? o.shape = some sh)
    (hfirst : rt.first? p = some (atomLength, f)) (len : ℕ) :
    let curLen := sh.heldLength num.arrayIndex len
    ∃ rt' es, Runtime.cutLoop num.arrayIndex undefined p curLen (sh.prop.length + 1) 0 rt =
        some rt' ∧
      Cut num.arrayIndex len curLen (entries sh.contents o.prop) es ∧
      Updates rt rt' p (some ⟨sh.proto, es⟩) ∧ rt'.first? p = some (atomLength, f) := by
  intro curLen
  obtain ⟨-, hwritten⟩ := hinv.slots ho hsh
  obtain ⟨hle, hheld, hconf⟩ := foldl_holdLength num.arrayIndex sh.prop len
  have hconf' : ∀ c ∈ sh.contents, beyond num.arrayIndex curLen c.1 = true →
      configurable c.2 = true := fun c hc hb => by
    obtain ⟨pr, hpr, rfl⟩ := List.mem_map.1 hc
    exact hconf pr hpr hb
  have hfuel : sh.prop.length - 0 < sh.prop.length + 1 := by omega
  obtain ⟨rt', o', sh', hrun, ho', hsh', hcont, hupd⟩ :=
    hinv.cutLoop ho hsh undefined hconf' hfuel
  -- what is not behind the length is left
  have hkeeps : ∀ {atom : ℕ}, ¬beyond num.arrayIndex curLen atom = true →
      atom ∈ names sh.contents → atom ∈ names sh'.contents := fun hb hmem =>
    hcont ▸ (cutContents_keeps _ 0 sh.contents hb).1 hmem
  refine ⟨rt', _, hrun, ⟨List.filter_sublist, fun e he hno => ?_, hle, fun hlt => ?_⟩, hupd, ?_⟩
  · have hb : beyond num.arrayIndex curLen e.1 = true := by
      by_contra hb
      exact hno (List.mem_filter.2 ⟨he, decide_eq_true (hkeeps hb (entries_fst_mem he))⟩)
    exact ⟨hconf' _ (mem_entries he).2 hb, hb⟩
  · obtain ⟨pr, hpr, hatom, hfixed, hindex⟩ := hheld hlt
    have hmem : pr.content ∈ sh.contents := List.mem_map_of_mem hpr
    obtain ⟨v, hv⟩ := entries_mem hwritten hmem hatom
    have hb : ¬beyond num.arrayIndex curLen pr.atom = true := fun hb =>
      Bool.false_ne_true (hfixed.symm.trans (hconf pr hpr hb))
    have hleft : pr.atom ∈ names sh'.contents := hkeeps hb (entries_fst_mem hv)
    exact ⟨_, List.mem_filter.2 ⟨hv, decide_eq_true hleft⟩, hfixed, hindex⟩
  · rw [Runtime.first?_eq ho hsh] at hfirst
    rw [Runtime.first?_eq ho' hsh', hcont]
    have hb : ¬beyond num.arrayIndex curLen atomLength = true := by
      simp [beyond, num.arrayIndex_length]
    exact (cutContents_keeps _ 0 sh.contents hb).2 f hfirst (by simp [atomLength])

/-- The pass over the elements is that of the entries, with its compactions. -/
theorem Inv.cutElements (num : Numbers V) (undefined : V) {f oldLen : ℕ} (hinv : Inv 0 none rt)
    (ho : rt.obj? p = some o) (hsh : rt.shape? o.shape = some sh)
    (hfirst : rt.first? p = some (atomLength, f)) (hlt : oldLen < 2 ^ 32) (len : ℕ) :
    ∃ curLen rt' es, rt.cutElements num undefined p sh oldLen len = some (curLen, rt') ∧
      Cut num.arrayIndex len curLen (entries sh.contents o.prop) es ∧
      Updates rt rt' p (some ⟨sh.proto, es⟩) ∧ rt'.first? p = some (atomLength, f) := by
  have hx := Runtime.view_eq ho hsh
  unfold Runtime.cutElements
  split_ifs with hlen hfew
  · obtain ⟨curLen, rt', es, hrun, -, hrest⟩ :=
      hinv.deleteDown num undefined hx hfirst hlen.le hlt
    exact ⟨curLen, rt', es, hrun, hrest⟩
  · obtain ⟨rt', es, hrun, hrest⟩ := hinv.cutShape num undefined ho hsh hfirst len
    exact ⟨_, rt', es, by simp only [hrun, Option.map_some], hrest⟩
  · exact ⟨len, rt, _, rfl, Cut.refl _, hinv.updates_self hx, hfirst⟩

/-- Shortening an array that is not fast, whose first entry is `length`. -/
theorem Inv.setArrayLength (num : Numbers V) (undefined : V) {x : AbsObj V} {f : ℕ}
    (hinv : Inv 0 none rt) (hx : rt.view p = some x)
    (hfirst : rt.first? p = some (atomLength, f)) (len : ℕ) :
    ∃ curLen rt' es, rt.setArrayLength num undefined p len = some (decide (curLen ≤ len), rt') ∧
      Cut num.arrayIndex len curLen x.props es ∧
      Updates rt rt' p
        (some (AbsObj.setValue ⟨x.proto, es⟩ atomLength (num.newUint32 curLen))) := by
  have hpos : atomLength ≠ 0 := by decide
  obtain ⟨o, sh, ho, hsh, -, -, hwritten, rfl⟩ := hinv.of_view hx
  obtain ⟨v, hv⟩ := hwritten 0 _ ((Runtime.first?_eq ho hsh).symm.trans hfirst) hpos
  obtain ⟨curLen, rt₁, es, hrun, hcut, hupd, hfirst₁⟩ :=
    hinv.cutElements num undefined ho hsh hfirst (num.toUint32_lt v) len
  obtain ⟨o₁, sh₁, ho₁, hsh₁, -, -, -, hview⟩ := hupd.inv.of_view hupd.self
  obtain ⟨hslot, hupd₁⟩ := hupd.inv.writeSlot ho₁ hsh₁
    ((Runtime.first?_eq ho₁ hsh₁).symm.trans hfirst₁) hpos (num.newUint32 curLen)
  rw [← hview] at hupd₁
  refine ⟨curLen, _, es, ?_, hcut, hupd.trans hupd₁⟩
  simp only [Runtime.setArrayLength, ho, hsh, hv, Option.join_some, Option.bind_eq_bind,
    Option.bind_some, hrun, ho₁, if_pos hslot]

/-! ## What is left -/

/-- An array without fixed elements holds no more than it is asked to. -/
theorem Shape.heldLength_eq
    (h : ∀ c ∈ sh.contents, beyond index len c.1 = true → configurable c.2 = true) :
    sh.heldLength index len = len := by
  obtain ⟨hle, hheld, -⟩ := foldl_holdLength index sh.prop len
  refine (hle.eq_or_lt).elim Eq.symm fun hlt => ?_
  obtain ⟨pr, hpr, hatom, hfixed, hindex⟩ := hheld hlt
  have hb : beyond index len pr.atom = true := by
    simp only [beyond, hatom, hindex, Option.any_some, ne_eq, not_false_eq_true, decide_true,
      Bool.true_and, decide_eq_true_eq]
    omega
  exact absurd (h pr.content (List.mem_map_of_mem hpr) hb) (by simp [ShapeProperty.content, hfixed])

/-- A pass that is at the end stops. -/
theorem cutContents_of_none {fuel i : ℕ} {cs : List (ℕ × ℕ)} (h : cs[i]? = none) :
    cutContents index curLen fuel i cs = cs := by
  cases fuel with
  | zero => rfl
  | succ fuel => rw [cutContents, h]

/-- One more entry is deleted, after the first `j` behind the length. -/
theorem dropEntry_zeros {c d : ℕ × ℕ} {ds : List (ℕ × ℕ)} (j : ℕ) (hc : c.1 ≠ 0)
    (hds : ∀ d ∈ ds, d.1 ≠ 0) :
    dropEntry (c :: (List.replicate j (0, 0) ++ d :: ds)) (j + 1) =
      if 8 ≤ j + 1 ∧ (j + ds.length + 2) / 2 ≤ j + 1 then c :: ds
      else c :: (List.replicate (j + 1) (0, 0) ++ ds) := by
  have hset : (c :: (List.replicate j (0, 0) ++ d :: ds)).set (j + 1) (0, 0) =
      c :: (List.replicate (j + 1) (0, 0) ++ ds) := by
    simp [List.replicate_succ']
  have hfree : (c :: (List.replicate (j + 1) (0, 0) ++ ds)).countP (fun c => c.1 = 0) = j + 1 := by
    have hzero : ds.countP (fun c => c.1 = 0) = 0 :=
      List.countP_eq_zero.2 fun d hd => by simpa using hds d hd
    simp [hc, hzero, List.countP_replicate]
  have hfilter : (c :: (List.replicate (j + 1) (0, 0) ++ ds)).filter (fun c => c.1 ≠ 0) =
      c :: ds := by
    have hself : ds.filter (fun c => c.1 ≠ 0) = ds :=
      List.filter_eq_self.2 fun d hd => by simpa using hds d hd
    simpa [hc] using hself
  have hlen : (c :: (List.replicate (j + 1) (0, 0) ++ ds)).length = j + ds.length + 2 := by
    simp
    omega
  unfold dropEntry
  dsimp only
  rw [hset, hfree, hlen, hfilter]

/-- After the first `j` elements the pass comes to the compaction or to the end, and the compaction
leaves too few entries for another turn. -/
theorem cutContents_zeros {c : ℕ × ℕ} {ds : List (ℕ × ℕ)} {fuel j k : ℕ} (hc : c.1 ≠ 0)
    (hds : ∀ d ∈ ds, beyond index curLen d.1 = true) (hfuel : ds.length < fuel)
    (hk : k = max 8 ((j + ds.length + 1) / 2)) (hj : j < k) :
    ∃ rest, cutContents index curLen fuel (j + 1) (c :: (List.replicate j (0, 0) ++ ds)) =
        c :: rest ∧ names rest = names (ds.drop (k - j)) := by
  induction ds generalizing j fuel with
  | nil =>
    refine ⟨List.replicate j (0, 0) ++ [], cutContents_of_none (by simp), ?_⟩
    simp [names]
  | cons d ds ih =>
    obtain ⟨fuel, rfl⟩ : ∃ n, fuel = n + 1 := ⟨fuel - 1, by omega⟩
    have hds' : ∀ d ∈ ds, beyond index curLen d.1 = true := fun d hd =>
      hds d (List.mem_cons_of_mem _ hd)
    have hat : (c :: (List.replicate j (0, 0) ++ d :: ds))[j + 1]? = some d := by simp
    rw [List.length_cons] at hfuel hk
    rw [cutContents, hat]
    dsimp only
    rw [if_pos (hds d List.mem_cons_self),
      dropEntry_zeros j hc fun d hd => ne_zero_of_beyond (hds' d hd)]
    split_ifs with hmany
    · have hend : (c :: ds)[j + 1 + 1]? = none := List.getElem?_eq_none (by simp; omega)
      have hone : k - j = 1 := by omega
      exact ⟨ds, cutContents_of_none hend, by rw [hone, List.drop_one, List.tail_cons]⟩
    · have hnext : k - j = k - (j + 1) + 1 := by omega
      rw [hnext, List.drop_succ_cons]
      exact ih hds' (by omega) (by omega) (by omega)

/-- The whole pass: the first `max 8 ((k + 1) / 2)` of the elements go. -/
theorem cutContents_eq {c : ℕ × ℕ} {ds : List (ℕ × ℕ)} (hc : c.1 ≠ 0)
    (hkeep : ¬beyond index curLen c.1 = true) (hds : ∀ d ∈ ds, beyond index curLen d.1 = true) :
    ∃ rest, cutContents index curLen (ds.length + 2) 0 (c :: ds) = c :: rest ∧
      names rest = names (ds.drop (max 8 ((ds.length + 1) / 2))) := by
  have hfirst : cutContents index curLen (ds.length + 2) 0 (c :: ds) =
      cutContents index curLen (ds.length + 1) 1 (c :: ds) := by
    rw [cutContents]
    simp only [List.getElem?_cons_zero]
    rw [if_neg hkeep]
  rw [hfirst]
  exact cutContents_zeros (j := 0) (k := max 8 ((ds.length + 1) / 2)) hc hds (Nat.lt_succ_self _)
    (by rw [Nat.zero_add]) (by omega)

/-- Without deleted entries the shape has the names and flags of the properties. -/
theorem contents_of_entries {cs : List (ℕ × ℕ)} {vals : List (Option V)} (hcs : ∀ c ∈ cs, c.1 ≠ 0)
    (hwritten : Written cs vals) : (entries cs vals).map (fun e => (e.1, e.2.1)) = cs := by
  induction cs generalizing vals with
  | nil => rfl
  | cons c cs ih =>
    have hc0 := hcs c List.mem_cons_self
    obtain ⟨v, hv⟩ := hwritten 0 c rfl hc0
    cases vals with
    | nil => simp at hv
    | cons w vals =>
      rw [List.getElem?_cons_zero, Option.some_inj] at hv
      subst hv
      have hwritten' : Written cs vals := fun i d hd hd0 => hwritten (i + 1) d hd hd0
      have hrest := ih (fun d hd => hcs d (List.mem_cons_of_mem _ hd)) hwritten'
      simp [entries, entryOf, hc0, hrest]

/-- Among different names, the last ones are those whose names are among the last. -/
theorem filter_mem_drop {es : List (ℕ × ℕ × V)} (hnodup : (es.map Prod.fst).Nodup) (n : ℕ) :
    (es.filter fun e => e.1 ∈ (es.drop n).map Prod.fst) = es.drop n := by
  have hdisj : ∀ e ∈ es.take n, e.1 ∉ (es.drop n).map Prod.fst := fun e he hmem => by
    rw [← List.take_append_drop n es, List.map_append, List.nodup_append] at hnodup
    exact hnodup.2.2 _ (List.mem_map_of_mem he) _ hmem rfl
  have htake : (es.take n).filter (fun e => e.1 ∈ (es.drop n).map Prod.fst) = [] :=
    List.filter_eq_nil_iff.2 fun e he => by simpa using hdisj e he
  have hdrop : (es.drop n).filter (fun e => e.1 ∈ (es.drop n).map Prod.fst) = es.drop n :=
    List.filter_eq_self.2 fun e he => decide_eq_true (List.mem_map_of_mem he)
  calc es.filter (fun e => e.1 ∈ (es.drop n).map Prod.fst)
      = (es.take n ++ es.drop n).filter fun e => e.1 ∈ (es.drop n).map Prod.fst := by
        rw [List.take_append_drop]
    _ = es.drop n := by rw [List.filter_append, htake, hdrop, List.nil_append]

/-- Where nothing was deleted the names are the atoms. -/
theorem names_of_ne_zero {cs : List (ℕ × ℕ)} (h : ∀ c ∈ cs, c.1 ≠ 0) :
    names cs = cs.map Prod.fst :=
  List.filter_eq_self.2 fun a ha => by
    obtain ⟨c, hc, rfl⟩ := List.mem_map.1 ha
    exact decide_eq_true (h c hc)

/-- What the shape of an array without deleted entries looks like. -/
theorem Inv.contents_eq (hinv : Inv 0 none rt) (ho : rt.obj? p = some o)
    (hsh : rt.shape? o.shape = some sh) (hfull : sh.deletedPropCount = 0) {atom f : ℕ} {v : V}
    {es : List (ℕ × ℕ × V)} (hes : entries sh.contents o.prop = (atom, f, v) :: es) :
    sh.contents = (atom, f) :: (es.map fun e => (e.1, e.2.1)) ∧ o.prop[0]? = some (some v) ∧
      (es.map Prod.fst).Nodup := by
  obtain ⟨hwf, -⟩ := hinv.shapes _ _ hsh
  obtain ⟨-, hwritten⟩ := hinv.slots ho hsh
  have hcs : ∀ c ∈ sh.contents, c.1 ≠ 0 := by
    have hcount := hwf.deleted
    rw [hfull, eq_comm, List.countP_eq_zero] at hcount
    exact fun c hc => by simpa using hcount c hc
  have hcont : sh.contents = (atom, f) :: (es.map fun e => (e.1, e.2.1)) := by
    rw [← contents_of_entries hcs hwritten, hes, List.map_cons]
  have hatom : atom ≠ 0 := hcs (atom, f) (hcont ▸ List.mem_cons_self)
  have hnodup := hwf.nodup
  rw [names_of_ne_zero hcs, hcont, List.map_cons, List.map_map] at hnodup
  refine ⟨hcont, ?_, (List.nodup_cons.1 hnodup).2⟩
  obtain ⟨w, hw⟩ := hwritten 0 (atom, f) (by rw [hcont]; rfl) hatom
  have hhead : entries ((atom, f) :: (es.map fun e => (e.1, e.2.1))) (o.prop.drop 0) = _ :=
    entries_drop hw
  rw [List.drop_zero, ← hcont, hes] at hhead
  have hvw : v = w := by simpa [entryOf, hatom] using congrArg List.head? hhead
  rw [hw, hvw]

/-- The pass on the properties: `length` and the last elements are left. -/
theorem left_eq {f : ℕ} {v : V} {es : List (ℕ × ℕ × V)} (hkeep : index atomLength = none)
    (hes : ∀ e ∈ es, beyond index len e.1 = true) (hnodup : (es.map Prod.fst).Nodup) :
    ∃ rest, cutContents index len (es.length + 2) 0
        ((atomLength, f) :: es.map fun e => (e.1, e.2.1)) = (atomLength, f) :: rest ∧
      ((atomLength, f, v) :: es).filter (fun e => e.1 ∈ names ((atomLength, f) :: rest)) =
        (atomLength, f, v) :: es.drop (max 8 ((es.length + 1) / 2)) := by
  have hpos : atomLength ≠ 0 := by decide
  have hkeep : ¬beyond index len atomLength = true := by simp [beyond, hkeep]
  have hds : ∀ d ∈ es.map fun e => (e.1, e.2.1), beyond index len d.1 = true := fun d hd => by
    obtain ⟨e, he, rfl⟩ := List.mem_map.1 hd
    exact hes e he
  obtain ⟨rest, hrest, hnames⟩ := cutContents_eq (c := (atomLength, f)) hpos hkeep hds
  rw [List.length_map] at hrest hnames
  rw [names_of_ne_zero fun d hd => ne_zero_of_beyond (hds d (List.mem_of_mem_drop hd)),
    ← List.map_drop, List.map_map] at hnames
  change names rest = (es.drop (max 8 ((es.length + 1) / 2))).map Prod.fst at hnames
  refine ⟨rest, hrest, ?_⟩
  have hnames' : names ((atomLength, f) :: rest) = atomLength :: names rest := rfl
  rw [hnames', List.filter_cons_of_pos (by simp), hnames]
  refine congrArg _ ((List.filter_congr fun e he => ?_).trans (filter_mem_drop hnodup _))
  have hne : e.1 ≠ atomLength := fun h => hkeep (h ▸ hes e he)
  simp [hne]

/-- The elements of an array that is not fast, all behind the new length, which all may be deleted:
`length` is the new one, but of the elements only the first `max 8 ((k + 1) / 2)` are gone. -/
theorem Inv.setArrayLength_drop (num : Numbers V) (undefined : V) (hinv : Inv 0 none rt)
    (ho : rt.obj? p = some o) (hsh : rt.shape? o.shape = some sh) (hfull : sh.deletedPropCount = 0)
    {f : ℕ} {v : V} {es : List (ℕ × ℕ × V)}
    (hes : entries sh.contents o.prop = (atomLength, f, v) :: es)
    (hall : ∀ e ∈ es, configurable e.2.1 = true ∧ beyond num.arrayIndex len e.1 = true)
    (hfar : es.length + 1 < num.toUint32 v - len) :
    ∃ rt', rt.setArrayLength num undefined p len = some (true, rt') ∧
      Updates rt rt' p (some ⟨sh.proto, (atomLength, f, num.newUint32 len) ::
        es.drop (max 8 ((es.length + 1) / 2))⟩) := by
  have hpos : atomLength ≠ 0 := by decide
  obtain ⟨hcont, hold, hnodup⟩ := hinv.contents_eq ho hsh hfull hes
  have hother : ∀ e ∈ es, e.1 ≠ atomLength := fun e he h => by
    have hb := (hall e he).2
    simp [h, beyond, num.arrayIndex_length] at hb
  have hlen : sh.prop.length = es.length + 1 := by
    have hlen := congrArg List.length hcont
    simpa [Shape.contents] using hlen
  have hconf : ∀ c ∈ sh.contents, beyond num.arrayIndex len c.1 = true →
      configurable c.2 = true := by
    intro c hc hb
    rw [hcont, List.mem_cons] at hc
    rcases hc with rfl | hc
    · simp [beyond, num.arrayIndex_length] at hb
    · obtain ⟨e, he, rfl⟩ := List.mem_map.1 hc
      exact (hall e he).1
  have hfuel : sh.prop.length - 0 < es.length + 2 := by omega
  obtain ⟨rt₁, o₁, sh₁, hrun, ho₁, hsh₁, hcont₁, hupd⟩ :=
    hinv.cutLoop ho hsh undefined hconf hfuel
  obtain ⟨rest, hrest, hleft⟩ :=
    left_eq (f := f) (v := v) num.arrayIndex_length (fun e he => (hall e he).2) hnodup
  rw [hcont, hrest] at hcont₁
  rw [hes, hcont₁, hleft] at hupd
  obtain ⟨hproto, hent⟩ := hupd.entries_eq ho₁ hsh₁
  have hfirst : sh₁.contents[0]? = some (atomLength, f) := by rw [hcont₁]; rfl
  obtain ⟨hslot, hupd₁⟩ := hupd.inv.writeSlot ho₁ hsh₁ hfirst hpos (num.newUint32 len)
  refine ⟨_, ?_, hupd.trans ((congrArg (fun x => Updates rt₁ _ p (some x)) ?_).mp hupd₁)⟩
  · have hcut : rt.cutElements num undefined p sh (num.toUint32 v) len = some (len, rt₁) := by
      rw [Runtime.cutElements, if_pos (by omega), if_neg (by omega), Shape.heldLength_eq hconf,
        hlen]
      exact congrArg (Option.map (len, ·)) hrun
    simp only [Runtime.setArrayLength, ho, hsh, hold, Option.join_some, Option.bind_eq_bind,
      Option.bind_some, hcut, ho₁, if_pos hslot, le_refl, decide_true]
  · rw [hproto, hent, AbsObj.setValue, AbsObj.modify, List.map_cons, if_pos rfl]
    have hrest : ∀ e ∈ es.drop (max 8 ((es.length + 1) / 2)),
        (if e.1 = atomLength then (e.1, e.2.1, num.newUint32 len) else e) = e := fun e he =>
      if_neg (hother e (List.mem_of_mem_drop he))
    rw [List.map_congr_left hrest, List.map_id']

/-! ## After any run -/

/-- A state of the code after a run. -/
theorem represents_of_run {undefined : V} {ops : List (Op V)} {answers : List (Answer V)}
    {s : Store V} (hrun : Protocol.run Store.step Store.start ops = some (answers, s))
    (hrunT : Protocol.run (Runtime.step undefined) Runtime.start ops = some (answers, rt)) :
    Represents s rt := by
  obtain ⟨rt₁, hrun₁, hrep⟩ :=
    Protocol.run_refines (step_refines undefined) ⟨inv_start, rfl⟩ hrun
  obtain rfl : rt₁ = rt := (Prod.mk.inj (Option.some_inj.1 (hrun₁.symm.trans hrunT))).2
  exact hrep

/-- An array that is not fast, after any run. `set_array_length` ends, only elements behind the
length that is left are gone, and the answer is true when this is the length that was asked for. -/
theorem setArrayLength_cuts (num : Numbers V) (undefined : V) {ops : List (Op V)}
    {answers : List (Answer V)} {s : Store V} {x : AbsObj V} {f : ℕ}
    (hrun : Protocol.run Store.step Store.start ops = some (answers, s))
    (hrunT : Protocol.run (Runtime.step undefined) Runtime.start ops = some (answers, rt))
    (hx : s.obj? p = some x) (hfirst : rt.first? p = some (atomLength, f)) (len : ℕ) :
    ∃ curLen rt' es, rt.setArrayLength num undefined p len = some (decide (curLen ≤ len), rt') ∧
      Cut num.arrayIndex len curLen x.props es ∧
      rt'.store = s.setObj p
        (some (AbsObj.setValue ⟨x.proto, es⟩ atomLength (num.newUint32 curLen))) := by
  obtain ⟨hinv, rfl⟩ := represents_of_run hrun hrunT
  rw [Runtime.store_obj?] at hx
  obtain ⟨curLen, rt', es, hset, hcut, hupd⟩ := hinv.setArrayLength num undefined hx hfirst len
  exact ⟨curLen, rt', es, hset, hcut, hupd.store⟩

/-- Numbers below `2 ^ 31`, which are tagged in atoms. -/
def smallNumbers : Numbers ℕ where
  newUint32 n := n
  toUint32 n := n % 2 ^ 32
  newAtom n := 2 ^ 31 + n
  arrayIndex atom := if 2 ^ 31 ≤ atom then some (atom - 2 ^ 31) else none
  toUint32_lt n := Nat.mod_lt n (by decide)
  newAtom_ne n := by omega
  arrayIndex_newAtom n _ := by simp
  arrayIndex_length := rfl

/-- The element 101 cannot be deleted when the length shall be 0: the length that is left is 102,
and only the element behind it is gone. -/
theorem setArrayLength_cuts_held :
    ∃ rt rt' : Runtime ℕ,
      Protocol.run (Runtime.step 0) Runtime.start [.newContext 3 none, .newArray 0 103,
          .add 0 (2 ^ 31 + 100) 7 1, .add 0 (2 ^ 31 + 101) 6 2, .add 0 (2 ^ 31 + 102) 7 3] =
        some ([.done, .made 0, .done, .done, .done], rt) ∧
      rt.setArrayLength smallNumbers 0 0 0 = some (false, rt') ∧
      Cut smallNumbers.arrayIndex 0 102 [(atomLength, lengthFlags, 103), (2 ^ 31 + 100, 7, 1),
          (2 ^ 31 + 101, 6, 2), (2 ^ 31 + 102, 7, 3)]
        [(atomLength, lengthFlags, 103), (2 ^ 31 + 100, 7, 1), (2 ^ 31 + 101, 6, 2)] ∧
      rt'.store.obj? 0 = some ⟨none,
        [(atomLength, lengthFlags, 102), (2 ^ 31 + 100, 7, 1), (2 ^ 31 + 101, 6, 2)]⟩ := by
  set ops : List (Op ℕ) := [.newContext 3 none, .newArray 0 103,
    .add 0 (2 ^ 31 + 100) 7 1, .add 0 (2 ^ 31 + 101) 6 2, .add 0 (2 ^ 31 + 102) 7 3]
  have hlists : Protocol.run Store.step (Store.start : Store ℕ) ops =
      some ([.done, .made 0, .done, .done, .done], ⟨[some ⟨none, [(atomLength, lengthFlags, 103),
        (2 ^ 31 + 100, 7, 1), (2 ^ 31 + 101, 6, 2), (2 ^ 31 + 102, 7, 3)]⟩], [some none]⟩) := rfl
  have hstate : ((Protocol.run (Runtime.step 0) Runtime.start ops).bind fun r => r.2.first? 0) =
      some (atomLength, lengthFlags) := by
    decide +kernel
  have hleft : ((Protocol.run (Runtime.step 0) Runtime.start ops).bind fun r =>
      (r.2.setArrayLength smallNumbers 0 0 0).bind fun q =>
        (q.2.store.obj? 0).map AbsObj.props) =
      some [(atomLength, lengthFlags, 102), (2 ^ 31 + 100, 7, 1), (2 ^ 31 + 101, 6, 2)] := by
    decide +kernel
  obtain ⟨rt, hrunT, -⟩ := Protocol.run_refines (step_refines 0) ⟨inv_start, rfl⟩ hlists
  rw [hrunT] at hstate hleft
  obtain ⟨curLen, rt', es, hset, hcut, hstore⟩ :=
    setArrayLength_cuts smallNumbers 0 hlists hrunT rfl hstate 0
  have hobj : rt'.store.obj? 0 = some (AbsObj.setValue ⟨none, es⟩ atomLength curLen) := by
    rw [hstore]
    rfl
  simp only [Option.bind_some, hset, hobj, Option.map_some, Option.some_inj] at hleft
  -- `length` was written last; the other entries are those that were there
  obtain ⟨rfl, rfl⟩ : curLen = 102 ∧
      es = [(atomLength, lengthFlags, 103), (2 ^ 31 + 100, 7, 1), (2 ^ 31 + 101, 6, 2)] := by
    have hmem := hcut.sublist.subset
    obtain ⟨a, es, rfl, ha, hleft⟩ := List.map_eq_cons_iff.1 hleft
    obtain ⟨b, es, rfl, hb, hleft⟩ := List.map_eq_cons_iff.1 hleft
    obtain ⟨c, es, rfl, hc, hleft⟩ := List.map_eq_cons_iff.1 hleft
    obtain rfl := List.map_eq_nil_iff.1 hleft
    simp only [List.cons_subset, List.mem_cons, List.not_mem_nil, or_false] at hmem
    obtain ⟨hmema, hmemb, hmemc, -⟩ := hmem
    rcases hmema with rfl | rfl | rfl | rfl <;> simp [atomLength, lengthFlags] at ha
    rcases hmemb with rfl | rfl | rfl | rfl <;> simp [atomLength, lengthFlags] at hb
    rcases hmemc with rfl | rfl | rfl | rfl <;> simp [atomLength, lengthFlags] at hc
    exact ⟨ha, rfl⟩
  exact ⟨rt, rt', hrunT, hset, hcut, hobj⟩

/-- An array that is not fast, after any run, when it has no deleted entries. All its elements are
behind the new length and may be deleted, and the length shrinks by more than there are properties.
Then `set_array_length` succeeds and `length` is the new one, but only the first
`max 8 ((k + 1) / 2)` of the `k` elements are gone: from nine on, elements stay behind `length`. -/
theorem setArrayLength_sparse (num : Numbers V) (undefined : V) {ops : List (Op V)}
    {answers : List (Answer V)} {s : Store V}
    (hrun : Protocol.run Store.step Store.start ops = some (answers, s))
    (hrunT : Protocol.run (Runtime.step undefined) Runtime.start ops = some (answers, rt))
    (ho : rt.obj? p = some o) (hsh : rt.shape? o.shape = some sh) (hfull : sh.deletedPropCount = 0)
    {proto : Option Ref} {f : ℕ} {v : V} {es : List (ℕ × ℕ × V)}
    (hx : s.obj? p = some ⟨proto, (atomLength, f, v) :: es⟩)
    (hall : ∀ e ∈ es, configurable e.2.1 = true ∧ beyond num.arrayIndex len e.1 = true)
    (hfar : es.length + 1 < num.toUint32 v - len) :
    ∃ rt', rt.setArrayLength num undefined p len = some (true, rt') ∧
      rt'.store = s.setObj p (some ⟨proto, (atomLength, f, num.newUint32 len) ::
        es.drop (max 8 ((es.length + 1) / 2))⟩) := by
  obtain ⟨hinv, rfl⟩ := represents_of_run hrun hrunT
  rw [Runtime.store_obj?, Runtime.view_eq ho hsh, Option.some_inj, AbsObj.mk.injEq] at hx
  obtain ⟨rfl, hes⟩ := hx
  obtain ⟨rt', hset, hupd⟩ := hinv.setArrayLength_drop num undefined ho hsh hfull hes hall hfar
  exact ⟨rt', hset, hupd.store⟩

/-- An array with the elements from 100 to 108 gets the length 0: the last of them stays. -/
theorem setArrayLength_sparse_nine :
    ∃ rt rt' : Runtime ℕ,
      Protocol.run (Runtime.step 0) Runtime.start ([.newContext 3 none, .newArray 0 109] ++
          (List.range 9).map fun i => .add 0 (2 ^ 31 + 100 + i) 7 i) =
        some ([.done, .made 0] ++ List.replicate 9 .done, rt) ∧
      rt.setArrayLength smallNumbers 0 0 0 = some (true, rt') ∧
      rt'.store.obj? 0 = some ⟨none, [(atomLength, lengthFlags, 0), (2 ^ 31 + 108, 7, 8)]⟩ := by
  set ops : List (Op ℕ) := [.newContext 3 none, .newArray 0 109] ++
    (List.range 9).map fun i => .add 0 (2 ^ 31 + 100 + i) 7 i with hops
  have hlists : Protocol.run Store.step (Store.start : Store ℕ) ops =
      some ([.done, .made 0] ++ List.replicate 9 .done,
        ⟨[some ⟨none, (atomLength, lengthFlags, 109) ::
          (List.range 9).map fun i => (2 ^ 31 + 100 + i, 7, i)⟩], [some none]⟩) := rfl
  have hstate : ((Protocol.run (Runtime.step 0) Runtime.start ops).bind fun r =>
      (r.2.obj? 0).bind fun o => (r.2.shape? o.shape).map Shape.deletedPropCount) = some 0 := by
    decide +kernel
  obtain ⟨rt, hrunT, -⟩ := Protocol.run_refines (step_refines 0) ⟨inv_start, rfl⟩ hlists
  simp only [hrunT, Option.bind_some, Option.bind_eq_some_iff, Option.map_eq_some_iff] at hstate
  obtain ⟨o, ho, sh, hsh, hfull⟩ := hstate
  obtain ⟨rt', hset, hstore⟩ :
      ∃ rt', rt.setArrayLength smallNumbers 0 0 0 = some (true, rt') ∧ rt'.store = _ :=
    setArrayLength_sparse smallNumbers 0 hlists hrunT ho hsh hfull rfl (by decide +kernel)
      (by decide)
  refine ⟨rt, rt', hrunT, hset, ?_⟩
  rw [hstore]
  rfl

end Shapes

end QuickjsDart
