import Mathlib.Data.List.Basic
import Mathlib.Logic.Function.Basic

/-!
# Arrays in raw memory

Memory as the values stored at addresses. An array is a run of elements of one size from a base
address on: what `putArray` stores, `getArray` reads back (`getArray_putArray`), and nothing below
the base or behind the array changes.
-/

namespace Memory

variable {α : Type}

/-- Store the elements of a list one after the other. -/
def putArray (size : ℕ) : ℕ → List α → (ℕ → Option α) → ℕ → Option α
  | _, [], m => m
  | base, x :: xs, m => putArray size (base + size) xs (Function.update m base (some x))

/-- Read elements that lie one after the other. -/
def getArray (size : ℕ) (m : ℕ → Option α) : ℕ → ℕ → Option (List α)
  | _, 0 => some []
  | base, n + 1 => do
    let x ← m base
    let xs ← getArray size m (base + size) n
    pure (x :: xs)

/-- An array writes nothing below its base. -/
theorem putArray_of_lt (size : ℕ) {base a : ℕ} (xs : List α) (m : ℕ → Option α) (h : a < base) :
    putArray size base xs m a = m a := by
  induction xs generalizing base m with
  | nil => rfl
  | cons x xs ih =>
    rw [putArray, ih _ (Nat.lt_add_right size h), Function.update_of_ne (Nat.ne_of_lt h)]

/-- An array writes nothing behind its end. -/
theorem putArray_of_le {size : ℕ} (hsize : 0 < size) {base a : ℕ} (xs : List α) (m : ℕ → Option α)
    (h : base + size * xs.length ≤ a) : putArray size base xs m a = m a := by
  induction xs generalizing base m with
  | nil => rfl
  | cons x xs ih =>
    rw [List.length_cons, Nat.mul_succ, Nat.add_comm (size * _), ← Nat.add_assoc] at h
    have hlt : base < a := by
      calc base < base + size := Nat.lt_add_of_pos_right hsize
        _ ≤ base + size + size * xs.length := Nat.le_add_right _ _
        _ ≤ a := h
    rw [putArray, ih _ h, Function.update_of_ne (Nat.ne_of_gt hlt)]

/-- The element at an index. -/
theorem putArray_get {size : ℕ} (hsize : 0 < size) (base : ℕ) (xs : List α) (m : ℕ → Option α)
    {i : ℕ} (hi : i < xs.length) : putArray size base xs m (base + size * i) = xs[i]? := by
  induction xs generalizing base m i with
  | nil => exact absurd hi (Nat.not_lt_zero _)
  | cons x xs ih =>
    cases i with
    | zero =>
      rw [putArray, Nat.mul_zero, Nat.add_zero,
        putArray_of_lt _ _ _ (Nat.lt_add_of_pos_right hsize),
        Function.update_self]
      rfl
    | succ i =>
      rw [putArray, Nat.mul_succ, Nat.add_comm (size * i), ← Nat.add_assoc,
        ih _ _ (Nat.lt_of_succ_lt_succ hi)]
      rfl

/-- Reading depends on the elements only. -/
theorem getArray_eq {size : ℕ} {m : ℕ → Option α} {base : ℕ} {xs : List α}
    (h : ∀ i < xs.length, m (base + size * i) = xs[i]?) :
    getArray size m base xs.length = some xs := by
  induction xs generalizing base with
  | nil => rfl
  | cons x xs ih =>
    have hhead : m base = some x := h 0 (Nat.succ_pos _)
    have htail : getArray size m (base + size) xs.length = some xs := by
      refine ih fun i hi => ?_
      have := h (i + 1) (Nat.succ_lt_succ hi)
      rwa [Nat.mul_succ, Nat.add_comm (size * i), ← Nat.add_assoc] at this
    rw [List.length_cons, getArray, hhead]
    dsimp only [bind, Option.bind]
    rw [htail]
    rfl

/-- An array is read back as it was written. -/
theorem getArray_putArray {size : ℕ} (hsize : 0 < size) (base : ℕ) (xs : List α)
    (m : ℕ → Option α) : getArray size (putArray size base xs m) base xs.length = some xs :=
  getArray_eq fun _ hi => putArray_get hsize base xs m hi

/-- Reading the elements one by one through their addresses. -/
theorem mapM_addresses (size : ℕ) (m : ℕ → Option α) (base n : ℕ) :
    ((List.range n).map fun i => base + size * i).mapM m = getArray size m base n := by
  induction n generalizing base with
  | zero => rfl
  | succ n ih =>
    have haddr : (fun i => base + size * i) ∘ Nat.succ = fun i => base + size + size * i := by
      funext i
      rw [Function.comp_apply, Nat.mul_succ, Nat.add_comm (size * i), Nat.add_assoc]
    rw [List.range_succ_eq_map, List.map_cons, List.map_map, haddr, List.mapM_cons, ih,
      Nat.mul_zero,
      Nat.add_zero]
    rfl

/-- An array whose first element cannot be read. -/
theorem getArray_eq_none {size : ℕ} {m : ℕ → Option α} {base n : ℕ} (h : m base = none)
    (hn : 0 < n) : getArray size m base n = none := by
  cases n with
  | zero => exact absurd hn (Nat.lt_irrefl 0)
  | succ n =>
    rw [getArray, h]
    rfl

end Memory
