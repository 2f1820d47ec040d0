import EngramDB.Foundations.Outcome
import Mathlib.Data.List.Basic
import Mathlib.Data.List.Infix

/-!
# Computations that may fail, over a state

An `Effect` returns a value or fails, and changes a state on the way. What was changed before a
failure stays changed.

* `bind_of_ok`, `bind_of_error`, `bind_eq_ok_iff`: a sequence, by the result of its first half;
* `Appends`: the computation appends a given list to an output, or a part of it if it fails, with a
  rule for a sequence and one for a loop;
* `OnReturn`: what a computation that returns has done to a part of the state, with rules for a
  sequence and a loop;
* `Makes`: the computation makes given calls and returns iff they all work, with a rule for a
  sequence.
-/

/-- A computation that may fail, over a state. -/
abbrev Effect (ε σ α : Type) := ExceptT ε (StateM σ) α

namespace Effect

variable {ε σ α β τ : Type}

/-- A computation that changes nothing. -/
def lift (x : Except ε α) : Effect ε σ α := fun s => (x, s)

@[simp]
theorem lift_apply (x : Except ε α) (s : σ) : (lift x : Effect ε σ α) s = (x, s) := rfl

@[simp]
theorem pure_apply (a : α) (s : σ) : (pure a : Effect ε σ α) s = (.ok a, s) := rfl

@[simp]
theorem throw_apply (e : ε) (s : σ) : (throw e : Effect ε σ α) s = (.error e, s) := rfl

/-- If the first part returns `a`, the second goes on with `a` from the state that the first
left. -/
theorem bind_of_ok {x : Effect ε σ α} {f : α → Effect ε σ β} {s s' : σ} {a : α}
    (h : x s = (.ok a, s')) : (x >>= f) s = f a s' := by
  simp only [bind, ExceptT.bind, ExceptT.mk, StateT.bind, h]
  rfl

/-- If the first part fails, the whole fails with its error, in the state that it left. -/
theorem bind_of_error {x : Effect ε σ α} {f : α → Effect ε σ β} {s s' : σ} {e : ε}
    (h : x s = (.error e, s')) : (x >>= f) s = (.error e, s') := by
  simp only [bind, ExceptT.bind, ExceptT.mk, StateT.bind, h]
  rfl

/-- A value that is lifted goes to the next part, in the same state. -/
theorem lift_ok_bind (a : α) (f : α → Effect ε σ β) :
    (lift (.ok a) : Effect ε σ α) >>= f = f a := rfl

/-- An error that is lifted ends the computation. -/
theorem lift_error_bind (e : ε) (f : α → Effect ε σ β) :
    (lift (.error e) : Effect ε σ α) >>= f = throw e := rfl

/-- A sequence returns exactly when both of its halves do. -/
theorem bind_eq_ok_iff {x : Effect ε σ α} {f : α → Effect ε σ β} {s s' : σ} {b : β} :
    (x >>= f) s = (.ok b, s') ↔ ∃ a t, x s = (.ok a, t) ∧ f a t = (.ok b, s') := by
  rcases hx : x s with ⟨e | a, t⟩
  · rw [bind_of_error hx]
    constructor
    · intro h
      cases h
    · rintro ⟨a, t', h, -⟩
      cases h
  · rw [bind_of_ok hx]
    constructor
    · intro h
      exact ⟨a, t, rfl, h⟩
    · rintro ⟨a', t', h, hf⟩
      cases h
      exact hf

/-! ### Appending to an output -/

/-- The computation appends `l` to the output that `out` shows, or a prefix of it if it fails. -/
def Appends (out : σ → List τ) (x : Effect ε σ α) (l : List τ) : Prop :=
  ∀ s, ∃ l', l' <+: l ∧ out (x s).2 = out s ++ l' ∧ ∀ a, (x s).1 = .ok a → l' = l

variable {out : σ → List τ} {l l' : List τ}

/-- A computation that never changes the output appends nothing to it. -/
theorem appends_nil {x : Effect ε σ α} (h : ∀ s, out (x s).2 = out s) : Appends out x [] := by
  intro s
  refine ⟨[], List.prefix_refl _, ?_, fun _ _ => rfl⟩
  rw [h, List.append_nil]

/-- A computation that always fails and appends nothing appends a prefix of anything. -/
theorem appends_of_error {x : Effect ε σ α} (h : ∀ s, out (x s).2 = out s)
    (herror : ∀ s a, (x s).1 ≠ .ok a) (l : List τ) : Appends out x l := by
  intro s
  refine ⟨[], List.nil_prefix, ?_, fun a ha => absurd ha (herror s a)⟩
  rw [h, List.append_nil]

/-- A sequence appends what its halves append. What the second half appends may rest on a property
of the value that the first half returns. -/
theorem Appends.bind_of {P : α → Prop} {x : Effect ε σ α} {f : α → Effect ε σ β}
    (hx : Appends out x l) (hP : ∀ s a, (x s).1 = .ok a → P a)
    (hf : ∀ a, P a → Appends out (f a) l') : Appends out (x >>= f) (l ++ l') := by
  intro s
  obtain ⟨p, hp, hout, hall⟩ := hx s
  -- if the first part fails, what it has appended is all there is
  rcases hs : x s with ⟨e | a, t⟩
  · refine ⟨p, hp.trans (List.prefix_append _ _), ?_, ?_⟩
    · rw [bind_of_error hs]
      rw [hs] at hout
      exact hout
    · intro a ha
      rw [bind_of_error hs] at ha
      cases ha
  · obtain ⟨q, hq, hout', hall'⟩ := hf a (hP s a (by rw [hs])) t
    obtain rfl : p = l := hall a (by rw [hs])
    refine ⟨p ++ q, (List.prefix_append_right_inj p).mpr hq, ?_, ?_⟩
    · rw [hs] at hout
      rw [bind_of_ok hs, hout', ← List.append_assoc]
      exact congrArg (· ++ q) hout
    · intro b hb
      rw [bind_of_ok hs] at hb
      rw [hall' b hb]

/-- What two parts append, one after the other, the whole appends; if it fails, a prefix of it. -/
theorem Appends.bind {x : Effect ε σ α} {f : α → Effect ε σ β} (hx : Appends out x l)
    (hf : ∀ a, Appends out (f a) l') : Appends out (x >>= f) (l ++ l') :=
  hx.bind_of (P := fun _ => True) (fun _ _ _ => trivial) fun a _ => hf a

/-- A loop appends what its rounds append, one after another. -/
theorem appends_forM {f : α → Effect ε σ PUnit} {g : α → List τ} {as : List α}
    (hf : ∀ a ∈ as, Appends out (f a) (g a)) : Appends out (forM as f) (as.flatMap g) := by
  induction as with
  | nil => exact appends_nil fun _ => rfl
  | cons a as ih =>
    rw [List.forM_cons, List.flatMap_cons]
    exact (hf a (by simp)).bind fun _ => ih fun b hb => hf b (by simp [hb])

/-! ### What was done when a computation returns -/

/-- A computation that returns has changed what `view` shows by `f`. -/
def OnReturn {ρ : Type} (view : σ → ρ) (x : Effect ε σ α) (f : ρ → ρ) : Prop :=
  ∀ s a s', x s = (.ok a, s') → view s' = f (view s)

section OnReturn

variable {ρ : Type} {view : σ → ρ} {f f' : ρ → ρ}

/-- A computation that leaves alone what is shown (`h`) changes it, when it returns, by nothing. -/
theorem onReturn_id {x : Effect ε σ α} (h : ∀ s, view (x s).2 = view s) : OnReturn view x id := by
  intro s a s' hs
  have hview := h s
  rwa [hs] at hview

/-- If two parts change what is shown by `f` and `f'` when they return, the whole changes it by one
after the other. -/
theorem OnReturn.bind {x : Effect ε σ α} {k : α → Effect ε σ β} (hx : OnReturn view x f)
    (hk : ∀ a, OnReturn view (k a) f') : OnReturn view (x >>= k) (f' ∘ f) := by
  intro s b s' hs
  obtain ⟨a, t, hfirst, hsecond⟩ := bind_eq_ok_iff.mp hs
  rw [hk a t b s' hsecond, hx s a t hfirst]
  rfl

/-- A loop that returns has done what its rounds do, one after another. -/
theorem onReturn_forM {k : α → Effect ε σ PUnit} {g : α → ρ → ρ} {as : List α}
    (hk : ∀ a ∈ as, OnReturn view (k a) (g a)) :
    OnReturn view (forM as k) fun r => as.foldl (fun r a => g a r) r := by
  induction as with
  | nil => exact onReturn_id fun _ => rfl
  | cons a as ih =>
    rw [List.forM_cons]
    exact (hk a (by simp)).bind fun _ => ih fun b hb => hk b (by simp [hb])

/-- A loop whose rounds leave alone what is shown (`hk`) leaves it alone itself when it returns. -/
theorem onReturn_forM_id {k : α → Effect ε σ PUnit} {as : List α}
    (hk : ∀ a ∈ as, OnReturn view (k a) id) : OnReturn view (forM as k) id := by
  intro s u s' hs
  rw [onReturn_forM hk s u s' hs]
  exact List.foldl_fixed as

end OnReturn

/-! ### Making calls -/

variable {κ : Type}

/-- Started in `s`, the computation makes the calls `cs`: it returns `a` in the state `s'` if they
all work, and it does not return if one of them does not. -/
structure Makes (works : κ → Prop) (x : Effect ε σ α) (s : σ) (cs : List κ) (a : α) (s' : σ) :
    Prop where
  /-- When every call works, the computation returns. -/
  returns : (∀ c ∈ cs, works c) → x s = (.ok a, s')
  /-- When the computation returns, every call works. -/
  works_of_ok : ∀ {b t}, x s = (.ok b, t) → ∀ c ∈ cs, works c

variable {works : κ → Prop} {s s' t : σ} {a : α} {b : β} {cs cs' : List κ}

/-- A computation that returns whatever `works` says (`h` is its run) makes no calls. -/
theorem makes_nil {x : Effect ε σ α} (h : x s = (.ok a, s')) : Makes works x s [] a s' where
  returns _ := h
  works_of_ok _ c hc := by cases hc

/-- A computation that makes the calls `cs` returns iff all of them work. -/
theorem Makes.ok_iff {x : Effect ε σ α} (hx : Makes works x s cs a s') :
    (∃ b t, x s = (.ok b, t)) ↔ ∀ c ∈ cs, works c :=
  ⟨fun ⟨_, _, h⟩ => hx.works_of_ok h, fun h => ⟨a, s', hx.returns h⟩⟩

/-- Computations that run alike from their states (`h`) make the same calls and lead to the same
result. -/
theorem Makes.congr {x y : Effect ε σ α} (hy : Makes works y t cs a s') (h : x s = y t) :
    Makes works x s cs a s' :=
  ⟨fun hcs => h.trans (hy.returns hcs), fun hx => hy.works_of_ok (h.symm.trans hx)⟩

/-- A sequence makes the calls of its first part (`hx`), and then those of its second part from
where the first one leads (`hf`). -/
theorem Makes.bind {x : Effect ε σ α} {f : α → Effect ε σ β} (hx : Makes works x s cs a s')
    (hf : Makes works (f a) s' cs' b t) : Makes works (x >>= f) s (cs ++ cs') b t where
  returns h := by
    rw [bind_of_ok (hx.returns fun c hc => h c (by simp [hc]))]
    exact hf.returns fun c hc => h c (by simp [hc])
  works_of_ok h := by
    obtain ⟨a', t', hfirst, hsecond⟩ := bind_eq_ok_iff.mp h
    have hcs := hx.works_of_ok hfirst
    have heq := hfirst.symm.trans (hx.returns hcs)
    cases heq
    have hcs' := hf.works_of_ok hsecond
    intro c hc
    rcases List.mem_append.mp hc with hc | hc
    · exact hcs c hc
    · exact hcs' c hc

end Effect
