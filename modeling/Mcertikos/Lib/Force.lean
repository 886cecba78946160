/-
Evaluation by value.

The kernel evaluates by name: a state that a run passes on is not computed before it is
looked at, and then again at every use.  The functions here pass a computed value on
instead.  Each of them is the plain application (`*_eq`), so that a run evaluated with
them is the run itself.
-/
import Mathlib.Tactic

namespace Force

variable {α β : Type*}

/-- `f n`, with `n` computed first. -/
def nat (n : ℕ) (f : ℕ → α) : α :=
  match n with
  | 0 => f 0
  | m + 1 => f (m + 1)

theorem nat_eq (n : ℕ) (f : ℕ → α) : nat n f = f n := by cases n <;> rfl

/-- `f b`, with `b` computed first. -/
def bool (b : Bool) (f : Bool → α) : α :=
  match b with
  | true => f true
  | false => f false

theorem bool_eq (b : Bool) (f : Bool → α) : bool b f = f b := by cases b <;> rfl

/-- The values of `g` below `n`, each computed with `force`, in front of `acc`. -/
def values (force : β → (β → α) → α) (g : ℕ → β) : ℕ → List β → (List β → α) → α
  | 0, acc, f => f acc
  | n + 1, acc, f => force (g n) fun v => values force g n (v :: acc) f

theorem values_eq {force : β → (β → α) → α} (h : ∀ b f, force b f = f b) (g : ℕ → β) (n : ℕ)
    (acc : List β) (f : List β → α) :
    values force g n acc f = f ((List.range n).map g ++ acc) := by
  induction n generalizing acc with
  | zero => rfl
  | succ n ih => simp [values, h, ih, List.range_succ]

/-- `f g`, with the values of `g` below `n` computed first. -/
def table (force : β → (β → α) → α) (g : ℕ → β) (n : ℕ) (f : (ℕ → β) → α) : α :=
  values force g n [] fun l => f fun i => l.getD i (g i)

theorem table_eq {force : β → (β → α) → α} (h : ∀ b f, force b f = f b) (g : ℕ → β) (n : ℕ)
    (f : (ℕ → β) → α) : table force g n f = f g := by
  unfold table
  rw [values_eq h, List.append_nil]
  congr 1
  funext i
  by_cases hi : i < n
  · simp [List.getD, hi]
  · simp [List.getD, hi]

end Force
