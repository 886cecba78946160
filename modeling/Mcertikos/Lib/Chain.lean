/-
Singly linked lists with a head variable, ended by null.

`c.Nodes l` says that the head of `c` leads through the nodes of `l`, in this order,
and then to null.  A program that edits such a list usually holds a pointer to one of
its pointers: `none` stands for the address of the head variable and `some a` for the
address of the `next` field of the node `a`.

* `Chain.last` — the loop `for (pp = p; *pp; pp = &(*pp)->next);`;
* `Chain.Nodes.last_exists`, `Chain.Nodes.append` — the loop ends, and storing a new
  node where it ended appends it;
* `Chain.Leads.insertAfter`, `Chain.Leads.removeAfter` — the edits behind a node of the
  list.  A list has no repetition (`Chain.Leads.nodup`), so they need no such condition.
-/
import Mathlib.Logic.Function.Basic
import Mathlib.Data.List.Nodup
import Mathlib.Tactic

variable {α : Type*}

/-- The head variable and the `next` fields of all nodes. -/
structure Chain (α : Type*) where
  head : Option α
  next : α → Option α

namespace Chain

open List Function

/-- `*pp`. -/
def load (c : Chain α) : Option α → Option α
  | none => c.head
  | some a => c.next a

/-- The address at which a walk from `pp` meets null, `none` if it takes `n` rounds or
more. -/
def last (c : Chain α) : ℕ → Option α → Option (Option α)
  | 0, _ => none
  | n + 1, pp =>
    match c.load pp with
    | none => some pp
    | some a => c.last n (some a)

section Store

variable [DecidableEq α]

def setNext (c : Chain α) (a : α) (v : Option α) : Chain α :=
  { c with next := update c.next a v }

/-- `*pp = b`. -/
def store (c : Chain α) (pp : Option α) (b : α) : Chain α :=
  match pp with
  | none => { c with head := some b }
  | some a => c.setNext a (some b)

end Store

/-- From the pointer `p` the nodes of `l` are met, in this order. -/
def Leads (next : α → Option α) : Option α → List α → Prop
  | p, [] => p = none
  | p, a :: l => p = some a ∧ Leads next (next a) l

/-- The nodes of the list. -/
def Nodes (c : Chain α) (l : List α) : Prop := Leads c.next c.head l

variable {next : α → Option α} {a : α}

theorem Leads.congr {next' : α → Option α} : ∀ {l : List α} {p : Option α},
    Leads next p l → (∀ a ∈ l, next' a = next a) → Leads next' p l := by
  intro l
  induction l with
  | nil => exact fun h _ => h
  | cons a l ih =>
    rintro p ⟨hp, hl⟩ hn
    refine ⟨hp, ?_⟩
    rw [hn a (by simp)]
    exact ih hl fun x hx => hn x (by simp [hx])

/-- A pointer leads to one list only. -/
theorem Leads.unique : ∀ {l l' : List α} {p : Option α},
    Leads next p l → Leads next p l' → l = l' := by
  intro l
  induction l with
  | nil =>
    intro l' p h h'
    cases l' with
    | nil => rfl
    | cons a l' => exact absurd (h.symm.trans h'.1) (Option.some_ne_none a).symm
  | cons a l ih =>
    intro l' p h h'
    cases l' with
    | nil => exact absurd (h'.symm.trans h.1) (Option.some_ne_none a).symm
    | cons b l' =>
      obtain rfl : a = b := Option.some.inj (h.1.symm.trans h'.1)
      rw [ih h.2 h'.2]

/-- Behind the nodes of a first part. -/
theorem Leads.drop : ∀ {l1 l2 : List α} {p : Option α},
    Leads next p (l1 ++ l2) → ∃ q, Leads next q l2 := by
  intro l1
  induction l1 with
  | nil => exact fun {_ p} h => ⟨p, h⟩
  | cons a l1 ih => exact fun h => ih h.2

/-- **A list that ends has no repetition**: a second occurrence would start the same list. -/
theorem Leads.nodup : ∀ {l : List α} {p : Option α}, Leads next p l → l.Nodup := by
  intro l
  induction l with
  | nil => exact fun _ => nodup_nil
  | cons a l ih =>
    intro p h
    refine nodup_cons.mpr ⟨fun hm => ?_, ih h.2⟩
    obtain ⟨l1, l2, rfl⟩ := append_of_mem hm
    obtain ⟨q, hq⟩ := Leads.drop h.2
    have heq := Leads.unique h.2 hq.2
    have hlen := congrArg length heq
    rw [length_append, length_cons] at hlen
    omega

variable {c : Chain α} {l : List α} {b : α}

theorem Nodes.head_eq (h : c.Nodes l) : c.head = l.head? := by
  cases l with
  | nil => exact h
  | cons a l => exact h.1

/-- Taking the first node off. -/
theorem Nodes.pop (h : c.Nodes (b :: l)) : { c with head := c.next b }.Nodes l := h.2

/-! ### The walk to the end -/

theorem last_of_leads : ∀ {l : List α} {pp : Option α}, Leads c.next (c.load pp) l →
    c.last (l.length + 1) pp = some (l.getLast?.or pp) := by
  intro l
  induction l with
  | nil =>
    intro pp h
    change c.load pp = none at h
    simp [last, h]
  | cons a l ih =>
    rintro pp ⟨ha, hl⟩
    rw [length_cons, last, ha]
    have hrest : c.last (l.length + 1) (some a) = some (l.getLast?.or (some a)) := ih hl
    refine hrest.trans ?_
    cases l with
    | nil => rfl
    | cons x l => simp [getLast?_cons]

theorem last_eq_of_leads : ∀ {l : List α} {pp r : Option α} {n : ℕ}, Leads c.next (c.load pp) l →
    c.last n pp = some r → r = l.getLast?.or pp := by
  intro l
  induction l with
  | nil =>
    intro pp r n h hr
    change c.load pp = none at h
    cases n with
    | zero => simp [last] at hr
    | succ n =>
      simp only [last, h, Option.some.injEq] at hr
      simp [hr]
  | cons a l ih =>
    rintro pp r n ⟨ha, hl⟩ hr
    cases n with
    | zero => simp [last] at hr
    | succ n =>
      rw [last, ha] at hr
      have hrest : r = l.getLast?.or (some a) := ih hl hr
      rw [hrest]
      cases l with
      | nil => rfl
      | cons x l => simp [getLast?_cons]

/-- **The walk ends.** -/
theorem Nodes.last_exists (h : c.Nodes l) : ∃ n pp, c.last n none = some pp := by
  have hlast : c.last (l.length + 1) none = some (l.getLast?.or none) := last_of_leads h
  exact ⟨_, _, hlast⟩

variable [DecidableEq α]

/-- Changing the `next` field of a node that is not in the list. -/
theorem Nodes.setNext (h : c.Nodes l) (hb : b ∉ l) (v : Option α) : (c.setNext b v).Nodes l :=
  h.congr fun _ ha => update_of_ne (ne_of_mem_of_not_mem ha hb) _ _

/-- The `next` fields after `b` is put behind the node `a`. -/
def insertAfter (next : α → Option α) (a b : α) : α → Option α :=
  update (update next b (next a)) a (some b)

/-- The `next` fields after the successor of `a` is taken off. -/
def removeAfter (next : α → Option α) (a : α) : α → Option α :=
  update next a ((next a).bind next)

theorem insertAfter_other (next : α → Option α) {b x : α} (ha : x ≠ a) (hb : x ≠ b) :
    insertAfter next a b x = next x := by
  unfold insertAfter
  rw [update_of_ne ha, update_of_ne hb]

/-- **A new first node.** -/
theorem Leads.insertHead {l : List α} {p : Option α} (h : Leads next p l)
    (hb : b ∉ l) : Leads (update next b p) (some b) (b :: l) := by
  refine ⟨rfl, ?_⟩
  rw [update_self]
  exact h.congr fun x hx => update_of_ne (ne_of_mem_of_not_mem hx hb) _ _

/-- **A new node behind `a`.** -/
theorem Leads.insertAfter {l2 : List α} : ∀ {l1 : List α} {p : Option α},
    Leads next p (l1 ++ a :: l2) → b ∉ l1 ++ a :: l2 →
    Leads (Chain.insertAfter next a b) p (l1 ++ a :: b :: l2) := by
  intro l1
  induction l1 with
  | nil =>
    intro p h hb
    obtain ⟨hba, hb⟩ : b ≠ a ∧ b ∉ l2 := by simpa using hb
    have ha := (nodup_cons.mp h.nodup).1
    refine ⟨h.1, update_self .., ?_⟩
    have hnew : Chain.insertAfter next a b b = next a := by
      unfold Chain.insertAfter
      rw [update_of_ne hba, update_self]
    rw [hnew]
    exact h.2.congr fun x hx => insertAfter_other next (ne_of_mem_of_not_mem hx ha)
      (ne_of_mem_of_not_mem hx hb)
  | cons x l1 ih =>
    intro p h hb
    have hxa : x ≠ a := fun he => (nodup_cons.mp h.nodup).1 (by simp [he])
    have hxb : x ≠ b := fun he => hb (by simp [he])
    refine ⟨h.1, ?_⟩
    rw [insertAfter_other next hxa hxb]
    exact ih h.2 fun hm => hb (mem_cons_of_mem _ hm)

/-- **The node behind `a` is taken off.** -/
theorem Leads.removeAfter {l2 : List α} : ∀ {l1 : List α} {p : Option α},
    Leads next p (l1 ++ a :: b :: l2) → Leads (Chain.removeAfter next a) p (l1 ++ a :: l2) := by
  intro l1
  induction l1 with
  | nil =>
    intro p h
    have ha := (nodup_cons.mp h.nodup).1
    refine ⟨h.1, ?_⟩
    have hnew : Chain.removeAfter next a a = next b := by
      unfold Chain.removeAfter
      rw [update_self, h.2.1]
      rfl
    rw [hnew]
    exact h.2.2.congr fun x hx => update_of_ne
      (ne_of_mem_of_not_mem hx fun hm => ha (mem_cons_of_mem _ hm)) _ _
  | cons x l1 ih =>
    intro p h
    have hxa : x ≠ a := fun he => (nodup_cons.mp h.nodup).1 (by simp [he])
    refine ⟨h.1, ?_⟩
    unfold Chain.removeAfter
    rw [update_of_ne hxa]
    exact ih h.2

/-- **Storing a node at the end of the walk appends it.** -/
theorem Nodes.append (h : c.Nodes l) (hb : b ∉ l) (hn : c.next b = none)
    {n : ℕ} {pp : Option α} (hl : c.last n none = some pp) : (c.store pp b).Nodes (l ++ [b]) := by
  have hpp : pp = l.getLast?.or none := last_eq_of_leads h hl
  rcases eq_nil_or_concat' l with rfl | ⟨l', a, rfl⟩
  · subst hpp
    exact ⟨rfl, hn⟩
  · rw [getLast?_append, getLast?_singleton] at hpp
    subst hpp
    have hlast : c.next a = none := by
      obtain ⟨q, hq⟩ := Leads.drop h
      exact hq.2
    have hins : Leads (insertAfter c.next a b) c.head (l' ++ [a, b]) := Leads.insertAfter h hb
    unfold insertAfter at hins
    rw [hlast, ← hn, update_eq_self] at hins
    rw [append_assoc]
    exact hins

end Chain
