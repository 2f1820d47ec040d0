import Mathlib.Data.Nat.Notation
import Mathlib.Tactic.SplitIfs

/-!
# Outcomes of routines that may fail or panic

A routine either returns a value, returns an error value, or panics. `Outcome ε α` is `Except`
over a `Fault`, so that `do` notation threads both kinds of failure, and a caller that matches on
the result can still tell them apart.
-/

/-- The two ways a routine can fail to return a value. -/
inductive Fault (ε : Type) where
  /-- The routine returned the error value `e`. -/
  | error (e : ε)
  /-- The routine panicked. -/
  | panic
deriving DecidableEq, Repr

/-- A returned value, a returned error, or a panic. -/
abbrev Outcome (ε α : Type) := Except (Fault ε) α

namespace Outcome

variable {ε α β : Type}

/-- A routine that cannot panic, seen as one that might. -/
def ofExcept : Except ε α → Outcome ε α
  | .ok a => .ok a
  | .error e => .error (.error e)

@[simp]
theorem ofExcept_ok (a : α) : ofExcept (.ok a : Except ε α) = .ok a := rfl

@[simp]
theorem ofExcept_error (e : ε) : ofExcept (.error e : Except ε α) = .error (.error e) := rfl

/-- Change the error value of a routine. -/
def mapErr {ε' : Type} (f : ε → ε') : Outcome ε α → Outcome ε' α
  | .ok a => .ok a
  | .error (.error e) => .error (.error (f e))
  | .error .panic => .error .panic

/-- Renaming the errors of a routine does not change when it returns. -/
@[simp]
theorem mapErr_eq_ok_iff {ε' : Type} {f : ε → ε'} {x : Outcome ε α} {a : α} :
    x.mapErr f = .ok a ↔ x = .ok a := by
  match x with
  | .ok b => simp [mapErr]
  | .error (.error e) => simp [mapErr]
  | .error .panic => simp [mapErr]

/-- Renaming the errors of a routine does not change when it panics. -/
@[simp]
theorem mapErr_eq_panic_iff {ε' : Type} {f : ε → ε'} {x : Outcome ε α} :
    x.mapErr f = .error .panic ↔ x = .error .panic := by
  match x with
  | .ok b => simp [mapErr]
  | .error (.error e) => simp [mapErr]
  | .error .panic => simp [mapErr]

/-- The routine panicked. -/
def isPanic : Outcome ε α → Bool
  | .error .panic => true
  | _ => false

/-- Indexing a vector: an index past the end panics. -/
def index (l : List α) (i : ℕ) : Outcome ε α :=
  match l[i]? with
  | some a => .ok a
  | none => .error .panic

/-- Indexing at a place that is there returns the item. -/
theorem index_eq_ok {l : List α} {i : ℕ} {a : α} (h : l[i]? = some a) :
    (index l i : Outcome ε α) = .ok a := by
  simp [index, h]

/-- The rest of a vector from `lo` on: a place past the end panics. -/
def sliceFrom (l : List α) (lo : ℕ) : Outcome ε (List α) :=
  if lo ≤ l.length then .ok (l.drop lo) else .error .panic

/-- The routine has no error of its own: it returns a value or panics. -/
def Infallible (x : Outcome ε α) : Prop := (∃ a, x = .ok a) ∨ x = .error .panic

/-- A routine of two parts that have no error of their own has none. -/
theorem Infallible.bind {x : Outcome ε α} {f : α → Outcome ε β} (hx : Infallible x)
    (hf : ∀ a, Infallible (f a)) : Infallible (x >>= f) := by
  obtain ⟨a, rfl⟩ | rfl := hx
  · exact hf a
  · exact .inr rfl

/-- A loop whose rounds have no error has none. -/
theorem Infallible.foldlM {f : β → α → Outcome ε β} (hf : ∀ b a, Infallible (f b a)) (l : List α)
    (b : β) : Infallible (l.foldlM f b) := by
  induction l generalizing b with
  | nil => exact .inl ⟨b, rfl⟩
  | cons a l ih =>
    rw [List.foldlM_cons]
    exact (hf b a).bind ih

end Outcome

namespace Except

variable {ε α β : Type}

/-- A value goes on to the next part. -/
theorem ok_bind (a : α) (f : α → Except ε β) : (.ok a : Except ε α) >>= f = f a := rfl

/-- A sequenced computation returns a value exactly when both of its halves do. -/
theorem bind_eq_ok_iff {x : Except ε α} {f : α → Except ε β} {b : β} :
    x >>= f = .ok b ↔ ∃ a, x = .ok a ∧ f a = .ok b := by
  cases x with
  | error e => simp [bind, Except.bind]
  | ok a => simp [bind, Except.bind]

/-- A check whose failure is an error, and what follows it. -/
theorem dite_throw_eq_ok_iff {p : Prop} [Decidable p] {f : p → Except ε α} {e : ε} {a : α} :
    (if h : p then f h else throw e) = .ok a ↔ ∃ h, f h = .ok a := by
  split_ifs with h
  · exact ⟨fun hf => ⟨h, hf⟩, fun ⟨_, hf⟩ => hf⟩
  · exact iff_of_false (fun hf => by cases hf) fun ⟨hp, _⟩ => h hp

/-- A guarded computation returns iff the guard holds and what it guards returns. -/
theorem ite_throw_eq_ok_iff {p : Prop} [Decidable p] {x : Except ε α} {e : ε} {a : α} :
    (if p then x else throw e) = .ok a ↔ p ∧ x = .ok a := by
  split_ifs with h
  · exact (and_iff_right h).symm
  · exact iff_of_false (fun hx => by cases hx) fun hp => h hp.1

/-- A sequenced computation returns exactly when both of its halves do. -/
theorem exists_bind_eq_ok_iff {x : Except ε α} {f : α → Except ε β} :
    (∃ b, x >>= f = .ok b) ↔ ∃ a, x = .ok a ∧ ∃ b, f a = .ok b := by
  constructor
  · rintro ⟨b, hb⟩
    obtain ⟨a, ha, hf⟩ := bind_eq_ok_iff.mp hb
    exact ⟨a, ha, b, hf⟩
  · rintro ⟨a, ha, b, hf⟩
    exact ⟨b, bind_eq_ok_iff.mpr ⟨a, ha, hf⟩⟩

/-- A check whose failure is an error, and what follows it, return exactly when the check holds and
what follows returns. -/
theorem exists_dite_throw_eq_ok_iff {p : Prop} [Decidable p] {f : p → Except ε α} {e : ε} :
    (∃ a, (if h : p then f h else throw e) = .ok a) ↔ ∃ h, ∃ a, f h = .ok a := by
  constructor
  · rintro ⟨a, ha⟩
    obtain ⟨h, hf⟩ := dite_throw_eq_ok_iff.mp ha
    exact ⟨h, a, hf⟩
  · rintro ⟨h, a, hf⟩
    exact ⟨a, dite_throw_eq_ok_iff.mpr ⟨h, hf⟩⟩

/-- A loop that succeeds (`h`) succeeds at its first entry, and from there over the rest. -/
theorem foldlM_cons_eq_ok {f : β → α → Except ε β} {s t : β} {a : α} {l : List α}
    (h : (a :: l).foldlM f s = .ok t) : ∃ s', f s a = .ok s' ∧ l.foldlM f s' = .ok t := by
  rw [List.foldlM_cons] at h
  exact bind_eq_ok_iff.mp h

/-- A loop that succeeds keeps what its rounds keep, and succeeds at every entry. -/
theorem foldlM_eq_ok {f : β → α → Except ε β} {P : β → Prop}
    (hstep : ∀ s a s', P s → f s a = .ok s' → P s') {l : List α} {s t : β} (hs : P s)
    (h : l.foldlM f s = .ok t) : P t ∧ ∀ a ∈ l, ∃ s s', P s ∧ f s a = .ok s' := by
  induction l generalizing s with
  | nil =>
    cases h
    exact ⟨hs, by simp⟩
  | cons a l ih =>
    obtain ⟨s', hfirst, hrest⟩ := foldlM_cons_eq_ok h
    obtain ⟨ht, hl⟩ := ih (hstep s a s' hs hfirst) hrest
    refine ⟨ht, fun b hb => ?_⟩
    rcases List.mem_cons.mp hb with rfl | hb
    · exact ⟨s, s', hs, hfirst⟩
    · exact hl b hb

/-- Both computations fail with the same error, or return related values. -/
def Both (R : α → β → Prop) : Except ε α → Except ε β → Prop
  | .ok a, .ok b => R a b
  | .error e, .error e' => e = e'
  | _, _ => False

section Both

variable {α' β' : Type} {R : α → β → Prop} {R' : α' → β' → Prop}

/-- If two computations fail alike or return related values, and go on alike from related values,
they do so as a whole. -/
theorem Both.bind {x : Except ε α} {y : Except ε β} {f : α → Except ε α'} {g : β → Except ε β'}
    (h : Both R x y) (hf : ∀ a b, R a b → Both R' (f a) (g b)) : Both R' (x >>= f) (y >>= g) := by
  match x, y, h with
  | .ok a, .ok b, h => exact hf a b h
  | .error _, .error _, h => exact h

/-- Loops over the same entries whose rounds keep the states related. -/
theorem Both.foldlM {ι : Type} {f : α → ι → Except ε α} {g : β → ι → Except ε β}
    (hstep : ∀ a b i, R a b → Both R (f a i) (g b i)) (l : List ι) {a : α} {b : β} (h : R a b) :
    Both R (l.foldlM f a) (l.foldlM g b) := by
  induction l generalizing a b with
  | nil => exact h
  | cons i l ih =>
    rw [List.foldlM_cons, List.foldlM_cons]
    exact (hstep a b i h).bind fun a' b' h' => ih h'

/-- What is the same for related values is the same for the computations. -/
theorem Both.map_eq {γ : Type} {x : Except ε α} {y : Except ε β} (h : Both R x y) {f : α → γ}
    {g : β → γ} (hfg : ∀ a b, R a b → f a = g b) : x.map f = y.map g := by
  match x, y, h with
  | .ok a, .ok b, h => exact congrArg Except.ok (hfg a b h)
  | .error _, .error _, h => exact congrArg Except.error h

end Both

/-- Loops whose rounds agree on the entries of the list, in all states (`h`), agree, errors and
panics included. -/
theorem foldlM_congr_of_mem {f f' : β → α → Except ε β} {l : List α}
    (h : ∀ s, ∀ a ∈ l, f s a = f' s a) (s : β) : l.foldlM f s = l.foldlM f' s := by
  induction l generalizing s with
  | nil => rfl
  | cons a l ih =>
    rw [List.foldlM_cons, List.foldlM_cons, h s a (by simp)]
    exact bind_congr fun s' => ih (fun s b hb => h s b (by simp [hb])) s'

end Except
