/-
Weakest preconditions for programs with state and failure.

A program is an `EStateM ε σ α`: it ends with a value or fails, and the state is
there in both cases, so that what a program has done before it fails can be
spoken about.  `Wp m Q E s` says that a run of `m` from `s` that returns satisfies
`Q` and one that fails satisfies `E`.

* `Outcome` — the same as `Wp`, where the error of a failing run matters;
* `wp_bind` and the other `wp_*` rules — one for every way to build a program;
* `Wp.mono` — to use the rule of a called function;
* `wp_forRange` — loops with an invariant;
* `Keeps` — an invariant that every run which returns keeps.
-/
import Mathlib.Tactic

namespace Hoare

variable {ε σ α β : Type}

/-! ### Outcomes -/

/-- A run of `m` from `s` that returns satisfies `Q`, and one that fails satisfies `F` with
its error. -/
def Outcome (m : EStateM ε σ α) (Q : α → σ → Prop) (F : ε → σ → Prop) (s : σ) : Prop :=
  match m s with
  | .ok a s' => Q a s'
  | .error e s' => F e s'

variable {m : EStateM ε σ α} {f : α → EStateM ε σ β} {Q Q' : α → σ → Prop} {R : β → σ → Prop}
  {F F' : ε → σ → Prop} {s s' : σ}

theorem Outcome.ok {a : α} (h : Outcome m Q F s) (hm : m s = .ok a s') : Q a s' := by
  unfold Outcome at h
  rwa [hm] at h

theorem Outcome.error {e : ε} (h : Outcome m Q F s) (hm : m s = .error e s') : F e s' := by
  unfold Outcome at h
  rwa [hm] at h

theorem Outcome.mono (h : Outcome m Q' F' s) (hQ : ∀ a s', Q' a s' → Q a s')
    (hF : ∀ e s', F' e s' → F e s') : Outcome m Q F s := by
  unfold Outcome at h ⊢
  split
  · rename_i a s' hm
    rw [hm] at h
    exact hQ a s' h
  · rename_i e s' hm
    rw [hm] at h
    exact hF e s' h

theorem outcome_bind :
    Outcome (m >>= f) R F s ↔ Outcome m (fun a s' => Outcome (f a) R F s') F s := by
  show Outcome (EStateM.bind m f) R F s ↔ _
  unfold Outcome EStateM.bind
  cases m s <;> exact Iff.rfl

theorem outcome_get {Q : σ → σ → Prop} : Outcome (get : EStateM ε σ σ) Q F s ↔ Q s s := Iff.rfl

theorem outcome_modify {g : σ → σ} {Q : PUnit → σ → Prop} :
    Outcome (modify g : EStateM ε σ PUnit) Q F s ↔ Q ⟨⟩ (g s) := Iff.rfl

theorem Outcome.bind (h : Outcome m Q F s) (hf : ∀ a s', Q a s' → Outcome (f a) R F s') :
    Outcome (m >>= f) R F s := outcome_bind.mpr (h.mono hf fun _ _ h => h)

/-- `for i in [a, a + k)`. -/
def forRange (a : ℕ) (body : ℕ → EStateM ε σ PUnit) : ℕ → EStateM ε σ PUnit
  | 0 => pure ⟨⟩
  | k + 1 => do
    forRange a body k
    body (a + k)

/-- The loop rule: `I i` holds before the pass for `i`. -/
theorem outcome_forRange {a : ℕ} {f : ℕ → EStateM ε σ PUnit} (I : ℕ → σ → Prop) (k : ℕ) (h0 : I a s)
    (hstep : ∀ i, a ≤ i → i < a + k → ∀ s, I i s → Outcome (f i) (fun _ => I (i + 1)) F s) :
    Outcome (forRange a f k) (fun _ => I (a + k)) F s := by
  induction k with
  | zero => exact h0
  | succ k ih =>
    refine (ih fun i h1 h2 => hstep i h1 (by omega)).bind fun _ s' hs' => ?_
    exact hstep (a + k) (by omega) (by omega) s' hs'

/-- A sequence that returns is two runs that return. -/
theorem bind_eq_ok {b : β} :
    (m >>= f) s = .ok b s' ↔ ∃ a s1, m s = .ok a s1 ∧ f a s1 = .ok b s' := by
  show EStateM.bind m f s = .ok b s' ↔ _
  unfold EStateM.bind
  cases m s with
  | ok a s1 => exact ⟨fun h => ⟨a, s1, rfl, h⟩, fun ⟨_, _, h1, h2⟩ => by cases h1; exact h2⟩
  | error e s1 => exact ⟨nofun, fun ⟨_, _, h1, _⟩ => nomatch h1⟩

/-! ### Weakest preconditions -/

/-- The weakest precondition of `m` for the postcondition `Q`, and `E` for
failures. -/
def Wp (m : EStateM ε σ α) (Q : α → σ → Prop) (E : σ → Prop) (s : σ) : Prop :=
  match m s with
  | .ok a s' => Q a s'
  | .error _ s' => E s'

variable {E E' : σ → Prop}

theorem Wp.ok {a : α} (h : Wp m Q E s) (hm : m s = .ok a s') : Q a s' := by
  unfold Wp at h
  rwa [hm] at h

/-- A program that cannot fail returns. -/
theorem Wp.exists_ok (h : Wp m Q (fun _ => False) s) : ∃ a s', m s = .ok a s' ∧ Q a s' := by
  unfold Wp at h
  cases hm : m s with
  | ok a s' =>
    rw [hm] at h
    exact ⟨a, s', rfl, h⟩
  | error e s' =>
    rw [hm] at h
    exact h.elim

theorem Wp.mono (h : Wp m Q' E' s) (hQ : ∀ a s', Q' a s' → Q a s') (hE : ∀ s', E' s' → E s') :
    Wp m Q E s :=
  Outcome.mono (show Outcome m Q' (fun _ => E') s from h) hQ fun _ => hE

theorem wp_bind : Wp (m >>= f) R E s ↔ Wp m (fun a s' => Wp (f a) R E s') E s :=
  outcome_bind (F := fun _ => E)

theorem wp_get {Q : σ → σ → Prop} : Wp (get : EStateM ε σ σ) Q E s ↔ Q s s := Iff.rfl

theorem wp_modify {g : σ → σ} {Q : PUnit → σ → Prop} :
    Wp (modify g : EStateM ε σ PUnit) Q E s ↔ Q ⟨⟩ (g s) := Iff.rfl

/-- Sequencing, with what is known between the two parts. -/
theorem Wp.bind (h : Wp m Q E s) (hf : ∀ a s', Q a s' → Wp (f a) R E s') : Wp (m >>= f) R E s :=
  wp_bind.mpr (h.mono hf fun _ h => h)

theorem wp_forRange {a : ℕ} {body : ℕ → EStateM ε σ PUnit} (I : ℕ → σ → Prop) (k : ℕ) (h0 : I a s)
    (hstep : ∀ i, a ≤ i → i < a + k → ∀ s, I i s → Wp (body i) (fun _ => I (i + 1)) E s) :
    Wp (forRange a body k) (fun _ => I (a + k)) E s :=
  outcome_forRange (F := fun _ => E) I k h0 hstep

/-! ### Invariants -/

/-- Every run of `m` that returns keeps `I`, and one that fails does so with an error in
`P`. -/
def Keeps (I : σ → Prop) (P : ε → Prop) (m : EStateM ε σ α) : Prop :=
  ∀ s, I s → Outcome m (fun _ => I) (fun e _ => P e) s

variable {I : σ → Prop} {P : ε → Prop}

theorem Keeps.ok {a : α} (h : Keeps I P m) (hs : I s) (hm : m s = .ok a s') : I s' :=
  (h s hs).ok hm

theorem Keeps.bind (h : Keeps I P m) (hf : ∀ a, Keeps I P (f a)) : Keeps I P (m >>= f) :=
  fun s hs => (h s hs).bind fun a s' hs' => hf a s' hs'

theorem keeps_pure (a : α) : Keeps I P (pure a : EStateM ε σ α) := fun _ hs => hs

theorem keeps_throw {e : ε} (h : P e) : Keeps I P (throw e : EStateM ε σ α) := fun _ _ => h

theorem keeps_get {f : σ → EStateM ε σ β} (h : ∀ s, I s → Keeps I P (f s)) :
    Keeps I P (get >>= f) :=
  fun s hs => outcome_bind.mpr (h s hs s hs)

theorem keeps_modify {g : σ → σ} (h : ∀ s, I s → I (g s)) :
    Keeps I P (modify g : EStateM ε σ PUnit) := fun s hs => h s hs

theorem keeps_forRange {a : ℕ} {body : ℕ → EStateM ε σ PUnit} (h : ∀ i, Keeps I P (body i))
    (k : ℕ) : Keeps I P (forRange a body k) :=
  fun _ hs => outcome_forRange (fun _ => I) k hs fun i _ _ s hs => h i s hs

end Hoare
