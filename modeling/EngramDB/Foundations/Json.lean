import Mathlib.Data.Nat.Notation

/-!
# JSON values

Values as a parser returns them: a number is an unsigned or a negative 64-bit integer if it is one,
and a floating-point number otherwise. The keys of an object are distinct.
-/

namespace Json

/-- A JSON value. -/
inductive Value where
  /-- `null`. -/
  | null
  /-- `true` and `false`. -/
  | bool (b : Bool)
  /-- An integer that is not negative. -/
  | posInt (n : UInt64)
  /-- A negative integer. -/
  | negInt (n : Int64)
  /-- Any other number, as the bits of a double. -/
  | float (bits : UInt64)
  /-- A string. -/
  | string (s : String)
  /-- An array. -/
  | array (vs : List Value)
  /-- An object. -/
  | object (fields : List (String × Value))
deriving Repr

namespace Value

/-- The field of an object. -/
def get (v : Value) (key : String) : Option Value :=
  match v with
  | .object fields => fields.lookup key
  | _ => none

/-- The value as an unsigned integer. -/
def asU64 : Value → Option UInt64
  | .posInt n => some n
  | _ => none

/-- The value as a string. -/
def asStr : Value → Option String
  | .string s => some s
  | _ => none

/-- The value as an array. -/
def asArray : Value → Option (List Value)
  | .array vs => some vs
  | _ => none

/-- The numbers that an array of values keeps are as many as its entries iff every entry is one. -/
theorem filterMap_asU64_length_eq_iff (vs : List Value) :
    (vs.filterMap asU64).length = vs.length ↔ ∀ v ∈ vs, (asU64 v).isSome := by
  induction vs with
  | nil => simp
  | cons v vs ih =>
    have hle : (vs.filterMap asU64).length ≤ vs.length := List.length_filterMap_le _ _
    cases hv : asU64 v with
    | none =>
      rw [List.filterMap_cons_none hv, List.length_cons]
      constructor
      · intro h
        omega
      · intro h
        have hsome := h v (by simp)
        simp [hv] at hsome
    | some n =>
      rw [List.filterMap_cons_some hv, List.length_cons, List.length_cons, Nat.succ_inj, ih]
      simp [hv]

end Value

end Json
