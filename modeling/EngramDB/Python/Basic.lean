import EngramDB.Foundations.Streaming
import Mathlib.Data.Int.Bitwise

/-!
# Python values and errors

The Python modules work on unbounded integers and lists. A statement that raises is modelled by
`Except PyError`; the errors that the modules raise themselves carry their message.
-/

namespace EngramDB

/-- Errors raised by the Python modules or by the operations they use. -/
inductive PyError where
  /-- `IndexError`: a list index out of range. -/
  | indexError
  /-- `KeyError`: a key that the mapping does not have. -/
  | keyError
  /-- `ZeroDivisionError`. -/
  | zeroDivisionError
  /-- `OverflowError`: an integer that does not fit the C type it is converted to. -/
  | overflowError
  /-- `AttributeError`: a name that the object does not have. -/
  | attributeError
  /-- `TypeError`, with its message. -/
  | typeError (message : String)
  /-- `ValueError`, with its message. -/
  | valueError (message : String)
  /-- `RuntimeError`, with its message. -/
  | runtimeError (message : String)
  /-- `OSError`, with its message. -/
  | osError (message : String)
  /-- A panic of the native extension, raised as `PanicException`. -/
  | panic
  /-- `struct.error`: a value that does not fit its format. -/
  | structError
  /-- `StopIteration`: an iterator that has no more values. -/
  | stopIteration
deriving DecidableEq, Repr

/-- A Python computation that may raise. -/
abbrev Py (α : Type) := Except PyError α

namespace Py

variable {α : Type}

/-- `xs[i]` for an index that is not negative. -/
def item (xs : List α) (i : ℕ) : Py α :=
  match xs[i]? with
  | some a => .ok a
  | none => .error .indexError

/-- Indexing at a place that is there returns the item. -/
theorem item_eq_ok {xs : List α} {i : ℕ} {a : α} (h : xs[i]? = some a) : item xs i = .ok a := by
  rw [item, h]

/-- `a % b`: the remainder of floor division. -/
def mod (a b : ℤ) : Py ℤ := if b = 0 then .error .zeroDivisionError else .ok (a.fmod b)

/-- `a // b`, rounded down. -/
def floorDiv (a b : ℤ) : Py ℤ := if b = 0 then .error .zeroDivisionError else .ok (a.fdiv b)

/-- `a % b` for numbers that are not negative. -/
def modNat (a b : ℕ) : Py ℕ := if b = 0 then .error .zeroDivisionError else .ok (a % b)

/-- `xs[-k:]` for a `k` that is not negative. Since `-0` is `0`, `xs[-0:]` is all of `xs`. -/
def lastItems (xs : List α) (k : ℕ) : List α :=
  if k = 0 then xs else xs.drop (xs.length - k)

/-- `xs or default` for an optional list: an empty list counts as absent. -/
def orDefault (xs : Option (List α)) (default : List α) : List α :=
  match xs with
  | some (a :: l) => a :: l
  | _ => default

theorem orDefault_none (default : List α) : orDefault none default = default := rfl

/-- A list that is given and not empty is used. -/
theorem orDefault_some {xs : List α} (h : xs ≠ []) (default : List α) :
    orDefault (some xs) default = xs := by
  cases xs with
  | nil => exact absurd rfl h
  | cons a l => rfl

/-- Reading lists of one length at one index fails alike. -/
theorem sameFault_item {xs ys : List α} (h : xs.length = ys.length) (i : ℕ) :
    Except.SameFault (item xs i) (item ys i) := by
  unfold item
  rcases Nat.lt_or_ge i xs.length with hi | hi
  · rw [List.getElem?_eq_getElem hi, List.getElem?_eq_getElem (h ▸ hi)]
    exact Except.sameFault_ok _ _
  · rw [List.getElem?_eq_none hi, List.getElem?_eq_none (h ▸ hi)]
    exact Except.SameFault.refl _

/-- Whether a remainder can be taken depends on the divisor alone. -/
theorem sameFault_mod (a a' b : ℤ) : Except.SameFault (mod a b) (mod a' b) := by
  unfold mod
  split_ifs
  · exact Except.SameFault.refl _
  · exact Except.sameFault_ok _ _

end Py

/-- A Python computation that may raise, over objects whose state `σ` it can change. What was
changed before an exception stays changed. -/
abbrev PyM (σ α : Type) := ExceptT PyError (StateM σ) α

namespace PyM

variable {σ α β : Type}

/-- A computation that changes no object. -/
def lift (x : Py α) : PyM σ α := fun s => (x, s)

@[simp]
theorem lift_apply (x : Py α) (s : σ) : (lift x : PyM σ α) s = (x, s) := rfl

@[simp]
theorem pure_apply (a : α) (s : σ) : (pure a : PyM σ α) s = (.ok a, s) := rfl

@[simp]
theorem throw_apply (e : PyError) (s : σ) : (throw e : PyM σ α) s = (.error e, s) := rfl

/-- If the first part returns `a`, the second goes on with `a` from the state that the first
left. -/
theorem bind_of_ok {x : PyM σ α} {f : α → PyM σ β} {s s' : σ} {a : α} (h : x s = (.ok a, s')) :
    (x >>= f) s = f a s' := by
  simp only [bind, ExceptT.bind, ExceptT.mk, StateT.bind, h]
  rfl

/-- If the first part raises, the whole raises its error, in the state that it left. -/
theorem bind_of_error {x : PyM σ α} {f : α → PyM σ β} {s s' : σ} {e : PyError}
    (h : x s = (.error e, s')) : (x >>= f) s = (.error e, s') := by
  simp only [bind, ExceptT.bind, ExceptT.mk, StateT.bind, h]
  rfl

/-- What follows on a computation sees its result and the objects it leaves, and nothing else. -/
theorem bind_congr_left {x y : PyM σ α} {s t : σ} (h : x s = y t) (f : α → PyM σ β) :
    (x >>= f) s = (y >>= f) t := by
  rcases hy : y t with ⟨e | a, t'⟩
  · rw [bind_of_error (h.trans hy), bind_of_error hy]
  · rw [bind_of_ok (h.trans hy), bind_of_ok hy]

/-- What follows on a computation and changes no object leaves what the computation left. -/
theorem bind_snd {x : PyM σ α} {f : α → PyM σ β} (h : ∀ a s, (f a s).2 = s) (s : σ) :
    ((x >>= f) s).2 = (x s).2 := by
  rcases hx : x s with ⟨e | a, t⟩
  · rw [bind_of_error hx]
  · rw [bind_of_ok hx, h]

/-- A sequence returns exactly when both of its halves do. -/
theorem bind_eq_ok_iff {x : PyM σ α} {f : α → PyM σ β} {s s' : σ} {b : β} :
    (x >>= f) s = (.ok b, s') ↔ ∃ a t, x s = (.ok a, t) ∧ f a t = (.ok b, s') := by
  rcases hx : x s with ⟨e | a, t⟩
  · rw [bind_of_error hx]
    constructor
    · intro h
      cases h
    · rintro ⟨a, t', h, -⟩
      cases h
  · rw [bind_of_ok hx]
    constructor
    · intro h
      exact ⟨a, t, rfl, h⟩
    · rintro ⟨a', t', h, hf⟩
      cases h
      exact hf

/-- The result does not depend on the state of the objects. -/
def Stateless (x : PyM σ α) : Prop := ∀ s t, (x s).1 = (x t).1

/-- Returning a value does not depend on the state. -/
theorem stateless_pure (a : α) : Stateless (pure a : PyM σ α) := fun _ _ => rfl

/-- A pure result does not depend on the state. -/
theorem stateless_lift (x : Py α) : Stateless (lift x : PyM σ α) := fun _ _ => rfl

/-- A computation of parts that do not depend on the state does not depend on it. -/
theorem Stateless.bind {x : PyM σ α} {f : α → PyM σ β} (hx : Stateless x)
    (hf : ∀ a, Stateless (f a)) : Stateless (x >>= f) := by
  intro s t
  have hst := hx s t
  rcases hs : x s with ⟨e | a, s'⟩
  · rcases ht : x t with ⟨e' | a', t'⟩
    · rw [bind_of_error hs, bind_of_error ht]
      rw [hs, ht] at hst
      exact congrArg Except.error (Except.error.inj hst)
    · rw [hs, ht] at hst
      cases hst
  · rcases ht : x t with ⟨e' | a', t'⟩
    · rw [hs, ht] at hst
      cases hst
    · rw [hs, ht] at hst
      obtain rfl : a = a' := Except.ok.inj hst
      rw [bind_of_ok hs, bind_of_ok ht]
      exact hf a s' t'

/-- Calls that each return their value and keep an invariant of the objects return the list of the
values and keep the invariant. -/
theorem mapM_of_ok {inv : σ → Prop} {f : α → PyM σ β} {g : α → β} {l : List α}
    (h : ∀ a ∈ l, ∀ s, inv s → ∃ s', f a s = (.ok (g a), s') ∧ inv s') {s : σ} (hs : inv s) :
    ∃ s', l.mapM f s = (.ok (l.map g), s') ∧ inv s' := by
  induction l generalizing s with
  | nil => exact ⟨s, rfl, hs⟩
  | cons a l ih =>
    obtain ⟨t, ht, hinv⟩ := h a (by simp) s hs
    obtain ⟨s', hs', hinv'⟩ := ih (fun b hb => h b (by simp [hb])) hinv
    refine ⟨s', ?_, hinv'⟩
    rw [List.mapM_cons, bind_of_ok ht, bind_of_ok hs']
    rfl

end PyM

/-- What a native object gives for an attribute name: the value of a getter, or a bound method. -/
inductive PyAttr where
  /-- The value of a getter. -/
  | int (n : ℤ)
  /-- A method that was not called. -/
  | method
deriving DecidableEq, Repr

/-- `int(x)` of an attribute: a method is not a number. -/
def PyAttr.toInt : PyAttr → Py ℤ
  | .int n => .ok n
  | .method => .error (.typeError ("int() argument must be a string, a bytes-like object or a real "
      ++ "number, not 'builtin_function_or_method'"))

end EngramDB
