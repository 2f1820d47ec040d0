import EngramDB.Foundations.Text
import EngramDB.Python.Basic

/-!
# JSON documents in Python

The values that `json.loads` makes of a document without fractions, and what the Python modules do
with them: the truth of a value, `in`, subscripts, `get`, and the conversions `int(x)`, `float(x)`
and `[int(x) for x in xs]`. A text is converted as its digits say, in any script, with white space
at the ends, a sign, and underscores between digits.

The text of a value is left out of the messages of the conversions.
-/

namespace EngramDB

/-! ### Numbers in texts -/

namespace PyText

/-- The digits zero of all scripts. -/
def decimalZeros : List ℕ :=
  [0x30, 0x660, 0x6F0, 0x7C0, 0x966, 0x9E6, 0xA66, 0xAE6, 0xB66, 0xBE6, 0xC66, 0xCE6, 0xD66, 0xDE6,
    0xE50, 0xED0, 0xF20, 0x1040, 0x1090, 0x17E0, 0x1810, 0x1946, 0x19D0, 0x1A80, 0x1A90, 0x1B50,
    0x1BB0, 0x1C40, 0x1C50, 0xA620, 0xA8D0, 0xA900, 0xA9D0, 0xA9F0, 0xAA50, 0xABF0, 0xFF10,
    0x104A0, 0x10D30, 0x11066, 0x110F0, 0x11136, 0x111D0, 0x112F0, 0x11450, 0x114D0, 0x11650,
    0x116C0, 0x11730, 0x118E0, 0x11950, 0x11C50, 0x11D50, 0x11DA0, 0x16A60, 0x16AC0, 0x16B50,
    0x1D7CE, 0x1D7D8, 0x1D7E2, 0x1D7EC, 0x1D7F6, 0x1E140, 0x1E2F0, 0x1E950, 0x1FBF0]

/-- The value of a digit of any script. -/
def digitValue (c : Char) : Option ℕ :=
  (decimalZeros.find? fun z => z ≤ c.toNat ∧ c.toNat < z + 10).map (c.toNat - ·)

/-- The digits behind a digit. An underscore may stand before each. -/
def digitsFrom : List Char → Option (List ℕ)
  | [] => some []
  | '_' :: c :: cs => do
    let d ← digitValue c
    let ds ← digitsFrom cs
    some (d :: ds)
  | c :: cs => do
    let d ← digitValue c
    let ds ← digitsFrom cs
    some (d :: ds)

/-- The digits of a text that is a number. -/
def digits : List Char → Option (List ℕ)
  | [] => none
  | c :: cs => do
    let d ← digitValue c
    let ds ← digitsFrom cs
    some (d :: ds)

/-- Whether there is a minus, and what is behind the sign. -/
def splitSign : List Char → Bool × List Char
  | '-' :: cs => (true, cs)
  | '+' :: cs => (false, cs)
  | cs => (false, cs)

/-- `sys.get_int_max_str_digits()`: a text with more digits is refused. -/
def intMaxStrDigits : ℕ := 4300

/-- The integer that a text is. -/
def parseInt (s : String) : Option ℤ := do
  let (negative, cs) := splitSign (Text.trim s.toList)
  let ds ← digits cs
  if intMaxStrDigits < ds.length then none
  else
    let n : ℤ := ds.foldl (fun n d => 10 * n + d) 0
    some (if negative then -n else n)

/-- Digits with at most one point, and a digit before or behind it. -/
def isMantissa (cs : List Char) : Bool :=
  let (whole, rest) := cs.span (· != '.')
  let fraction := rest.drop 1
  (whole.isEmpty || (digits whole).isSome) && (fraction.isEmpty || (digits fraction).isSome) &&
    !(whole.isEmpty && fraction.isEmpty)

/-- A mantissa, and an exponent if there is an `e`. -/
def isDecimal (cs : List Char) : Bool :=
  let (mantissa, rest) := cs.span fun c => c != 'e' && c != 'E'
  isMantissa mantissa && (rest.isEmpty || (digits (splitSign (rest.drop 1)).2).isSome)

/-- Whether a text is a floating-point number. -/
def isFloat (s : String) : Bool :=
  let cs := (splitSign (Text.trim s.toList)).2
  decide (cs.map Char.toLower ∈ ["inf".toList, "infinity".toList, "nan".toList]) || isDecimal cs

end PyText

/-! ### Values -/

/-- A value of a JSON document. -/
inductive PyJson where
  /-- `None`. -/
  | none
  /-- `True` and `False`. -/
  | bool (b : Bool)
  /-- An integer. -/
  | int (n : ℤ)
  /-- A string. -/
  | str (s : String)
  /-- A list. -/
  | list (xs : List PyJson)
  /-- A dictionary. -/
  | dict (entries : List (String × PyJson))

namespace PyJson

/-- Whether the value counts as true. -/
def truthy : PyJson → Bool
  | none => false
  | bool b => b
  | int n => n ≠ 0
  | str s => s ≠ ""
  | list xs => !xs.isEmpty
  | dict entries => !entries.isEmpty

/-- Whether the value is the given string. -/
def isStr (s : String) : PyJson → Bool
  | str t => s == t
  | _ => false

/-- Whether the value is `None`. -/
def isNone : PyJson → Bool
  | none => true
  | _ => false

/-- The name of the type. -/
def typeName : PyJson → String
  | none => "NoneType"
  | bool _ => "bool"
  | int _ => "int"
  | str _ => "str"
  | list _ => "list"
  | dict _ => "dict"

/-- `key in value`: a key, an entry or a part of a text. -/
def contains (key : String) : PyJson → Py Bool
  | dict entries => .ok (entries.lookup key).isSome
  | list xs => .ok (xs.any (isStr key))
  | str s => .ok (s.toList.tails.any fun tail => key.toList.isPrefixOf tail)
  | v => .error (.typeError s!"argument of type '{v.typeName}' is not iterable")

/-- `value[key]`. -/
def item (key : String) : PyJson → Py PyJson
  | dict entries =>
    match entries.lookup key with
    | some v => .ok v
    | Option.none => .error .keyError
  | list _ => .error (.typeError "list indices must be integers or slices, not str")
  | str _ => .error (.typeError "string indices must be integers, not 'str'")
  | v => .error (.typeError s!"'{v.typeName}' object is not subscriptable")

/-- `value.get(key, default)`. Dictionaries alone have the method. -/
def getD (v : PyJson) (key : String) (default : PyJson) : Py PyJson :=
  match v with
  | dict entries => .ok ((entries.lookup key).getD default)
  | _ => .error .attributeError

/-- `value.get(key)`. -/
def get (key : String) (v : PyJson) : Py PyJson := v.getD key none

/-- `int(value)`. -/
def toInt : PyJson → Py ℤ
  | int n => .ok n
  | bool b => .ok (if b then 1 else 0)
  | str s =>
    match PyText.parseInt s with
    | some n => .ok n
    | Option.none => .error (.valueError "invalid literal for int() with base 10")
  | v => .error
    (.typeError ("int() argument must be a string, a bytes-like object or a real number, "
      ++ s!"not '{v.typeName}'"))

/-- `float(value)`, without the number. An integer is refused if its rounding is not finite. -/
def checkFloat : PyJson → Py Unit
  | int n => if 2 ^ 1024 - 2 ^ 970 ≤ n.natAbs then .error .overflowError else .ok ()
  | bool _ => .ok ()
  | str s =>
    if PyText.isFloat s then .ok () else .error (.valueError "could not convert string to float")
  | v => .error
    (.typeError s!"float() argument must be a string or a real number, not '{v.typeName}'")

/-- What a loop over the value visits. -/
def items : PyJson → Py (List PyJson)
  | list xs => .ok xs
  | str s => .ok (s.toList.map fun c => str (String.singleton c))
  | dict entries => .ok (entries.map fun e => str e.1)
  | v => .error (.typeError s!"'{v.typeName}' object is not iterable")

/-- `[int(x) for x in value] if value is not None else None`. -/
def toInts : PyJson → Py (Option (List ℤ))
  | none => .ok Option.none
  | v => do
    let xs ← v.items
    let ns ← xs.mapM toInt
    pure (some ns)

/-- `int(value.get(key) or default)`. -/
def intOr (key : String) (default : ℤ) (v : PyJson) : Py ℤ := do
  let x ← v.get key
  if x.truthy then x.toInt else pure default

/-- The entry of a dictionary, `None` if there is none. -/
def field (key : String) : PyJson → PyJson
  | dict entries => (entries.lookup key).getD none
  | _ => none

/-- The value is a dictionary. -/
def IsDict (v : PyJson) : Prop := ∃ entries, v = dict entries

/-- The value converts to an integer. -/
def IsInt (v : PyJson) : Prop := ∃ n, v.toInt = .ok n

section Entries

variable {v x : PyJson} {key : String}

theorem isStr_eq_true_iff {s : String} : v.isStr s = true ↔ v = .str s := by
  cases v
  case str t => rw [isStr, beq_iff_eq, str.injEq, eq_comm]
  all_goals exact iff_of_false Bool.false_ne_true nofun

theorem get_eq_ok_iff : v.get key = .ok x ↔ v.IsDict ∧ x = v.field key := by
  constructor
  · intro h
    cases v
    case dict entries => exact ⟨⟨entries, rfl⟩, (Except.ok.inj h).symm⟩
    all_goals cases h
  · rintro ⟨⟨entries, rfl⟩, rfl⟩
    rfl

theorem IsDict.get_eq (h : v.IsDict) (key : String) : v.get key = .ok (v.field key) :=
  get_eq_ok_iff.mpr ⟨h, rfl⟩

/-- A subscript finds the entry that the dictionary has. -/
theorem item_eq_ok_iff : v.item key = .ok x ↔
    v.IsDict ∧ v.contains key = .ok true ∧ x = v.field key := by
  constructor
  · intro h
    cases v
    case dict entries =>
      rw [item] at h
      cases hlookup : entries.lookup key with
      | none =>
        rw [hlookup] at h
        cases h
      | some y =>
        rw [hlookup] at h
        obtain rfl := Except.ok.inj h
        refine ⟨⟨entries, rfl⟩, ?_, ?_⟩
        · rw [contains, hlookup, Option.isSome_some]
        · rw [field, hlookup, Option.getD_some]
    all_goals cases h
  · rintro ⟨⟨entries, rfl⟩, hcontains, rfl⟩
    have hsome := Except.ok.inj hcontains
    obtain ⟨y, hy⟩ := Option.isSome_iff_exists.mp hsome
    rw [item, field, hy]
    rfl

/-- A section that has an entry was not the default. -/
theorem item_of_getD {name : String} (h : v.getD key (.dict []) = .ok x)
    (hx : x.contains name = .ok true) :
    v.item key = .ok x := by
  cases v
  case dict entries =>
    obtain rfl := Except.ok.inj h
    cases hlookup : entries.lookup key with
    | none =>
      rw [hlookup, Option.getD_none] at hx
      cases hx
    | some y => rw [item, hlookup, Option.getD_some]
  all_goals cases h

/-- An integer that is read from a dictionary, or its default. -/
theorem intOr_eq_ok_iff {default n : ℤ} : v.intOr key default = .ok n ↔
    v.IsDict ∧ (if (v.field key).truthy then (v.field key).toInt else .ok default) = .ok n := by
  rw [intOr, Except.bind_eq_ok_iff]
  constructor
  · rintro ⟨x, hx, hn⟩
    obtain ⟨hdict, rfl⟩ := get_eq_ok_iff.mp hx
    exact ⟨hdict, hn⟩
  · rintro ⟨hdict, hn⟩
    exact ⟨_, hdict.get_eq key, hn⟩

end Entries

end PyJson

end EngramDB
