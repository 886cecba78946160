/-
Circular doubly linked lists with a sentinel.

`IsRing k h l` says that the link fields `k` of the nodes form one circle: from
the sentinel `h` through the nodes of `l` in this order and back to `h`, with
`next` and `prev` pointing at each other all the way.  A list with separate
`head` and `tail` variables is the same thing, with these two as the `next` and
`prev` of the sentinel.

* `IsRing.unlink`, `IsRing.insert_front`, `IsRing.insert_back` — the edits.  They
  take the new links by what they do, so that the order in which a program
  writes the fields, and what it leaves in an unlinked node, do not matter;
* `IsRing.congr` — a ring only depends on the fields of its nodes;
* `IsRing.reverse` — the same ring read along `prev`;
* `IsRing.scan` — the search along `next` ends and finds the first match.
-/
import Mathlib.Data.List.Chain
import Mathlib.Tactic

namespace Ring

open List Function

variable {α : Type*}

/-- The link fields of all nodes. -/
structure Links (α : Type*) where
  prev : α → α
  next : α → α

namespace Links

/-- `b` follows `a`, in both fields. -/
def Edge (k : Links α) (a b : α) : Prop := k.next a = b ∧ k.prev b = a

def swap (k : Links α) : Links α := ⟨k.next, k.prev⟩

variable [DecidableEq α]

def setPrev (k : Links α) (a v : α) : Links α := { k with prev := update k.prev a v }

def setNext (k : Links α) (a v : α) : Links α := { k with next := update k.next a v }

@[simp] theorem setPrev_prev (k : Links α) (a v x : α) :
    (k.setPrev a v).prev x = if x = a then v else k.prev x := by
  simp [setPrev, update_apply]

@[simp] theorem setNext_next (k : Links α) (a v x : α) :
    (k.setNext a v).next x = if x = a then v else k.next x := by
  simp [setNext, update_apply]

@[simp] theorem setPrev_next (k : Links α) (a v : α) : (k.setPrev a v).next = k.next := rfl

@[simp] theorem setNext_prev (k : Links α) (a v : α) : (k.setNext a v).prev = k.prev := rfl

theorem setPrev_of_eq {k : Links α} {a v : α} (h : k.prev a = v) : k.setPrev a v = k := by
  rw [← h, setPrev, update_eq_self]

theorem setNext_of_eq {k : Links α} {a v : α} (h : k.next a = v) : k.setNext a v = k := by
  rw [← h, setNext, update_eq_self]

end Links

/-- The nodes of `l`, in this order, form a ring with the sentinel `h`. -/
structure IsRing (k : Links α) (h : α) (l : List α) : Prop where
  nodup : (h :: l).Nodup
  chain : (h :: (l ++ [h])).IsChain k.Edge

variable {k k' : Links α} {h b : α} {l l₁ l₂ : List α}

/-! ### Chains of edges -/

/-- A chain only reads the `next` of all but its last and the `prev` of all but
its first node. -/
theorem chain_of_agree (hc : l.IsChain k.Edge) (hn : ∀ a ∈ l.dropLast, k'.next a = k.next a)
    (hp : ∀ a ∈ l.tail, k'.prev a = k.prev a) : l.IsChain k'.Edge := by
  induction l with
  | nil => exact .nil
  | cons a l ih =>
    cases l with
    | nil => exact .singleton a
    | cons b l =>
      rw [isChain_cons_cons] at hc ⊢
      obtain ⟨⟨hab, hba⟩, hrest⟩ := hc
      refine ⟨⟨?_, ?_⟩, ih hrest ?_ ?_⟩
      · rw [hn a (by simp), hab]
      · rw [hp b (by simp), hba]
      · exact fun x hx => hn x (by simp [hx])
      · exact fun x hx => hp x (by simp at hx ⊢; exact .inr hx)

/-- A ring only reads the fields of its own nodes. -/
theorem IsRing.congr (hr : IsRing k h l) (hn : ∀ a ∈ h :: l, k'.next a = k.next a)
    (hp : ∀ a ∈ h :: l, k'.prev a = k.prev a) : IsRing k' h l := by
  have hlast : (h :: (l ++ [h])).dropLast = h :: l := by
    rw [← cons_append, dropLast_concat]
  refine ⟨hr.nodup, chain_of_agree hr.chain ?_ ?_⟩
  · rw [hlast]
    exact hn
  · intro a ha
    exact hp a (by simpa [or_comm] using ha)

/-! ### Edits -/

section

variable (hr : IsRing k h (l₁ ++ b :: l₂))
include hr

/-- The two neighbours of a node, and the chains on both sides of it. -/
theorem IsRing.split :
    ∃ p q, h :: l₁ = p ++ [k.prev b] ∧ l₂ ++ [h] = k.next b :: q ∧
      (p ++ [k.prev b]).IsChain k.Edge ∧ (k.next b :: q).IsChain k.Edge := by
  obtain ⟨p, x, hx⟩ := (eq_nil_or_concat' (h :: l₁)).resolve_left (cons_ne_nil h l₁)
  obtain ⟨z, q, hz⟩ := exists_cons_of_ne_nil (l := l₂ ++ [h]) (by simp)
  have hc : (p ++ x :: b :: z :: q).IsChain k.Edge := by
    have heq : h :: (l₁ ++ b :: l₂ ++ [h]) = p ++ x :: b :: z :: q := by
      rw [← hz, ← singleton_append (x := x), ← append_assoc p, ← hx]
      simp
    rw [← heq]
    exact hr.chain
  rw [isChain_append_cons_cons, isChain_cons_cons] at hc
  obtain ⟨hpre, ⟨_, hbx⟩, ⟨hbz, _⟩, hpost⟩ := hc
  exact ⟨p, q, by rw [hx, hbx], by rw [hz, hbz], by rw [hbx]; exact hpre, by rw [hbz]; exact hpost⟩

/-- The neighbours of a node are nodes of the ring. -/
theorem IsRing.neighbours_mem :
    k.prev b ∈ h :: (l₁ ++ b :: l₂) ∧ k.next b ∈ h :: (l₁ ++ b :: l₂) := by
  obtain ⟨p, q, hx, hz, -, -⟩ := hr.split
  have hm : k.prev b ∈ h :: l₁ := by rw [hx]; simp
  have hm' : k.next b ∈ l₂ ++ [h] := by rw [hz]; simp
  rw [mem_cons] at hm
  rw [mem_append, mem_singleton] at hm'
  simp only [mem_cons, mem_append]
  tauto

/-- A node is not its own neighbour. -/
theorem IsRing.neighbours_ne : k.prev b ≠ b ∧ k.next b ≠ b := by
  obtain ⟨p, q, hx, hz, -, -⟩ := hr.split
  have hnd := hr.nodup
  rw [← cons_append, nodup_append] at hnd
  have hm : k.prev b ∈ h :: l₁ := by rw [hx]; simp
  have hm' : k.next b ∈ l₂ ++ [h] := by rw [hz]; simp
  refine ⟨hnd.2.2 _ hm b (by simp), fun he => ?_⟩
  rw [he] at hm'
  rcases mem_append.mp hm' with hb | hb
  · exact (nodup_cons.mp hnd.2.1).1 hb
  · exact hnd.2.2 h (by simp) b (by simp) (mem_singleton.mp hb).symm

/-- Only the sentinel can be on both sides of a node. -/
theorem IsRing.eq_of_neighbours_eq (he : k.prev b = k.next b) : k.prev b = h := by
  obtain ⟨p, q, hx, hz, -, -⟩ := hr.split
  have hnd := hr.nodup
  rw [← cons_append, nodup_append] at hnd
  have hm : k.prev b ∈ h :: l₁ := by rw [hx]; simp
  have hm' : k.prev b ∈ l₂ ++ [h] := by rw [he, hz]; simp
  rcases mem_append.mp hm' with hm' | hm'
  · exact absurd rfl (hnd.2.2 _ hm _ (mem_cons_of_mem _ hm'))
  · exact mem_singleton.mp hm'

/-- **Unlinking a node.**  The two neighbours are linked to each other, every
other node of the ring keeps its fields. -/
theorem IsRing.unlink
    (hnext : k'.next (k.prev b) = k.next b) (hprev : k'.prev (k.next b) = k.prev b)
    (hn : ∀ a, a ≠ k.prev b → a ≠ b → k'.next a = k.next a)
    (hp : ∀ a, a ≠ k.next b → a ≠ b → k'.prev a = k.prev a) : IsRing k' h (l₁ ++ l₂) := by
  obtain ⟨p, q, hx, hz, hpre, hpost⟩ := hr.split
  have hnd := hr.nodup
  rw [← cons_append, nodup_append] at hnd
  obtain ⟨hnd1, hnd2, hdis⟩ := hnd
  obtain ⟨hb2, hnd2'⟩ := nodup_cons.mp hnd2
  have hmx : k.prev b ∈ h :: l₁ := by rw [hx]; simp
  have hmz : k.next b ∈ l₂ ++ [h] := by rw [hz]; simp
  have hh2 : h ∉ l₂ := fun hm => hdis h (by simp) h (by simp [hm]) rfl
  have hcirc : (l₂ ++ [h]).Nodup := by
    simpa using Nodup.concat hh2 hnd2'
  -- the nodes before `b`, and the nodes after it up to the sentinel
  have hbefore : ∀ a ∈ h :: l₁, a ≠ b := fun a ha => hdis a ha b (by simp)
  have hafter : ∀ a ∈ l₂ ++ [h], a ≠ b := by
    intro a ha he
    rcases mem_append.mp ha with ha | ha
    · exact hb2 (he ▸ ha)
    · exact hbefore a (by simp at ha; simp [ha]) he
  constructor
  · rw [← cons_append, nodup_append]
    exact ⟨hnd1, hnd2', fun a ha c hc => hdis a ha c (by simp [hc])⟩
  · have heq : h :: (l₁ ++ l₂ ++ [h]) = p ++ k.prev b :: k.next b :: q := by
      rw [← hz, ← singleton_append (x := k.prev b), ← append_assoc p, ← hx]
      simp
    rw [heq, isChain_append_cons_cons]
    refine ⟨chain_of_agree hpre ?_ ?_, ⟨hnext, hprev⟩, chain_of_agree hpost ?_ ?_⟩
    · intro a ha
      rw [dropLast_concat] at ha
      have hne : a ≠ k.prev b := by
        rw [hx, nodup_append] at hnd1
        exact hnd1.2.2 a ha _ (by simp)
      exact hn a hne (hbefore a (by rw [hx]; simp [ha]))
    · rw [← hx]
      intro a ha
      have ha' : a ∈ h :: l₁ := by simp at ha; simp [ha]
      refine hp a (fun he => ?_) (hbefore a ha')
      rcases mem_append.mp (he ▸ hmz) with hm | hm
      · exact hdis a ha' a (by simp [hm]) rfl
      · simp only [mem_singleton] at hm
        exact (nodup_cons.mp hnd1).1 (hm ▸ ha)
    · rw [← hz]
      intro a ha
      rw [dropLast_concat] at ha
      exact hn a (fun he => hdis _ hmx a (by simp [ha]) he.symm) (hafter a (by simp [ha]))
    · intro a ha
      have hne : a ≠ k.next b := by
        rw [hz] at hcirc
        exact fun he => (nodup_cons.mp hcirc).1 (he ▸ ha)
      exact hp a hne (hafter a (by rw [hz]; exact mem_cons_of_mem _ ha))

end

/-- The same ring, read backwards. -/
theorem IsRing.reverse (hr : IsRing k h l) : IsRing k.swap h l.reverse := by
  constructor
  · have := hr.nodup
    simpa using this
  · have heq : h :: (l.reverse ++ [h]) = (h :: (l ++ [h])).reverse := by simp
    rw [heq, isChain_reverse]
    exact hr.chain.imp fun a b hab => ⟨hab.2, hab.1⟩

theorem IsRing.next_head (hr : IsRing k h l) : k.next h = l.head?.getD h := by
  have hc := hr.chain
  cases l with
  | nil => exact (isChain_pair.mp hc).1
  | cons b l => exact (isChain_cons_cons.mp hc).1.1

theorem IsRing.next_mem (hr : IsRing k h l) : k.next h ∈ h :: l := by
  rw [hr.next_head]
  cases l <;> simp

theorem IsRing.prev_mem (hr : IsRing k h l) : k.prev h ∈ h :: l := by
  simpa [Links.swap] using hr.reverse.next_mem

/-- **Inserting a node after the sentinel.** -/
theorem IsRing.insert_front (hr : IsRing k h l) (hb : b ∉ h :: l)
    (hhb : k'.next h = b) (hbh : k'.prev b = h)
    (hbn : k'.next b = k.next h) (hnb : k'.prev (k.next h) = b)
    (hn : ∀ a, a ≠ h → a ≠ b → k'.next a = k.next a)
    (hp : ∀ a, a ≠ k.next h → a ≠ b → k'.prev a = k.prev a) : IsRing k' h (b :: l) := by
  have hnd := hr.nodup
  constructor
  · simp only [mem_cons, not_or] at hb
    simp only [nodup_cons, mem_cons, not_or] at hnd ⊢
    exact ⟨⟨Ne.symm hb.1, hnd.1⟩, hb.2, hnd.2⟩
  · obtain ⟨z, q, hz⟩ := exists_cons_of_ne_nil (l := l ++ [h]) (by simp)
    have hc := hr.chain
    rw [hz, isChain_cons_cons] at hc
    obtain ⟨⟨hhz, _⟩, hpost⟩ := hc
    rw [cons_append, isChain_cons_cons, hz, isChain_cons_cons]
    refine ⟨⟨hhb, hbh⟩, ⟨by rw [hbn, hhz], by rw [← hhz, hnb]⟩, chain_of_agree hpost ?_ ?_⟩
    · rw [← hz]
      intro a ha
      rw [dropLast_concat] at ha
      exact hn a (fun he => (nodup_cons.mp hnd).1 (he ▸ ha))
        (fun he => hb (mem_cons_of_mem _ (he ▸ ha)))
    · intro a ha
      have hcirc : (l ++ [h]).Nodup := by
        simpa using Nodup.concat (nodup_cons.mp hnd).1 (nodup_cons.mp hnd).2
      have hm : a ∈ l ++ [h] := by rw [hz]; exact mem_cons_of_mem _ ha
      rw [hz] at hcirc
      refine hp a (fun he => (nodup_cons.mp hcirc).1 ?_) (fun he => hb ?_)
      · rw [← hhz, ← he]
        exact ha
      · rw [← he]
        simpa [or_comm] using hm

/-- **Inserting a node before the sentinel**, at the end of the list. -/
theorem IsRing.insert_back (hr : IsRing k h l) (hb : b ∉ h :: l)
    (hhb : k'.prev h = b) (hbh : k'.next b = h)
    (hbp : k'.prev b = k.prev h) (hpb : k'.next (k.prev h) = b)
    (hp : ∀ a, a ≠ h → a ≠ b → k'.prev a = k.prev a)
    (hn : ∀ a, a ≠ k.prev h → a ≠ b → k'.next a = k.next a) : IsRing k' h (l ++ [b]) := by
  have hb' : b ∉ h :: l.reverse := by simpa using hb
  have hins : IsRing k'.swap h (b :: l.reverse) :=
    hr.reverse.insert_front hb' hhb hbh hbp hpb hp hn
  simpa [Links.swap] using hins.reverse

/-! ### Search -/

section Scan

variable [DecidableEq α]

/-- `for (a = next; a != h; a = a->next) if (p a) return a; return h`, in at most
`n` rounds. -/
def scan (next : α → α) (h : α) (p : α → Bool) : ℕ → α → Option α
  | 0, _ => none
  | n + 1, a => if a = h then some h else if p a then some a else scan next h p n (next a)

/-- The nodes met along `next` from `a` up to the sentinel, at most `n`. -/
def walk (next : α → α) (h : α) : ℕ → α → List α
  | 0, _ => []
  | n + 1, a => if a = h then [] else a :: walk next h n (next a)

theorem walk_of_chain : ∀ {l : List α} {a : α} {n : ℕ},
    (a :: (l ++ [h])).IsChain k.Edge → h ∉ l → l.length ≤ n → walk k.next h n (k.next a) = l := by
  intro l
  induction l with
  | nil =>
    intro a n hc _ _
    rw [nil_append, isChain_pair] at hc
    cases n with
    | zero => rfl
    | succ n => rw [hc.1, walk, if_pos rfl]
  | cons b l ih =>
    intro a n hc hh hn
    obtain ⟨m, rfl⟩ : ∃ m, n = m + 1 := ⟨n - 1, by simp at hn; omega⟩
    rw [cons_append, isChain_cons_cons] at hc
    have hbh : b ≠ h := fun he => hh (by simp [he])
    rw [hc.1.1, walk, if_neg hbh, ih hc.2 (fun hm => hh (by simp [hm])) (by simpa using hn)]

/-- **Walking along `next` meets the nodes in order.** -/
theorem IsRing.walk (hr : IsRing k h l) {n : ℕ} (hn : l.length ≤ n) :
    walk k.next h n (k.next h) = l :=
  walk_of_chain hr.chain (nodup_cons.mp hr.nodup).1 hn

@[simp] theorem walk_self (next : α → α) (h : α) (n : ℕ) : walk next h n h = [] := by
  cases n with
  | zero => rfl
  | succ n => rw [walk, if_pos rfl]

/-- The search finds the first match on the walk, ring or not, if the walk ends. -/
theorem scan_eq_find {next : α → α} {h : α} (p : α → Bool) : ∀ {n : ℕ} {a : α},
    (walk next h n a).length < n →
    scan next h p n a = some (((walk next h n a).find? p).getD h) := by
  intro n
  induction n with
  | zero => exact nofun
  | succ n ih =>
    intro a hn
    rw [walk] at hn ⊢
    rw [scan]
    by_cases ha : a = h
    · rw [if_pos ha, if_pos ha]
      rfl
    · rw [if_neg ha, length_cons] at hn
      rw [if_neg ha, if_neg ha, find?_cons, ih (by omega)]
      cases p a <;> rfl

/-- **The search along `next` ends and finds the first match**, or the sentinel
if there is none. -/
theorem IsRing.scan (hr : IsRing k h l) (p : α → Bool) {n : ℕ} (hn : l.length < n) :
    scan k.next h p n (k.next h) = some ((l.find? p).getD h) := by
  have hwalk := hr.walk hn.le
  rw [scan_eq_find p (by rwa [hwalk]), hwalk]

section Rank

variable {next : α → α} {P : α → Prop} {rank : α → ℕ} {b : ℕ}

theorem mem_walk (hnext : ∀ a, P a → next a = h ∨ P (next a)) : ∀ {n : ℕ} {a : α}, P a →
    ∀ x ∈ walk next h n a, P x := by
  intro n
  induction n with
  | zero => exact nofun
  | succ n ih =>
    intro a ha x hx
    rw [walk] at hx
    split at hx
    · exact absurd hx not_mem_nil
    · rcases mem_cons.mp hx with rfl | hx
      · exact ha
      · rcases hnext a ha with hh | hP
        · rw [hh, walk_self] at hx
          exact absurd hx not_mem_nil
        · exact ih hP x hx

/-- **A walk along which a bounded rank grows is short.** -/
theorem length_walk_add_rank_le (hb : ∀ a, P a → rank a < b)
    (hnext : ∀ a, P a → next a = h ∨ P (next a) ∧ rank a < rank (next a)) :
    ∀ {n : ℕ} {a : α}, P a → (walk next h n a).length + rank a ≤ b := by
  intro n
  induction n with
  | zero => exact fun ha => by simpa [walk] using (hb _ ha).le
  | succ n ih =>
    intro a ha
    have hlt := hb a ha
    rw [walk]
    split
    · simpa using hlt.le
    · rw [length_cons]
      rcases hnext a ha with hh | ⟨hP, hr⟩
      · rw [hh, walk_self, length_nil]
        omega
      · have := ih hP
        omega

end Rank

end Scan

end Ring
