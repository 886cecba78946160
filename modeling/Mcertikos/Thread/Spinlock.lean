/-
Spinlocks (`kern/lib/spinlock.c`).

Every read of `lk->lock`, every `xchg` and every write of `lk->lock_holder` is
one atomic step of one CPU, and the steps of the CPUs interleave in any order.
`spinlock_try_acquire` takes the lock with an exchange; `spinlock_acquire` waits
until it reads 0 and then only writes its index into `lk->lock_holder`, so that
`lk->lock` stays 0 in a section it opened.

* `LockSys.inv_of_run` — if a section opened by `spinlock_acquire` is left alone by
  the other CPUs, at most one section is open at a time;
* `LockSys.spinlock_exclusive` — mutual exclusion in such runs;
* `LockSys.spinlock_acquire_both` — two CPUs can both return from `spinlock_acquire`.

Design notes: the time stamps and the warning of the wait loop have no effect on
the lock and are left out, as is the assertion on the kernel stack; `DEBUG_*`
variants are not compiled in.
-/
import Mathlib.Logic.Relation
import Mathlib.Tactic

namespace Mcertikos

open Function

/-- `NUM_CPUS` of `spinlock.c`. -/
def spinlockNumCpus : ℕ := 4

/-- `spinlock_t`. -/
structure Spinlock where
  lockHolder : ℕ
  lock : ℕ
  deriving DecidableEq, Repr

def spinlockInit : Spinlock := { lockHolder := spinlockNumCpus + 1, lock := 0 }

/-- The function a section was opened by. -/
inductive Entry where
  | acquire
  | tryAcquire
  deriving DecidableEq, Repr

/-- The next access of a CPU to the lock. -/
inductive LockPc where
  /-- Outside of the three functions, without the lock. -/
  | idle
  /-- `spinlock_acquire`: about to read `lk->lock` in the wait loop. -/
  | wait
  /-- `spinlock_try_acquire`: about to exchange `lk->lock` with 1. -/
  | exchange
  /-- About to write its index into `lk->lock_holder`. -/
  | own (e : Entry)
  /-- Returned from the acquire, and has not called `spinlock_release`. -/
  | inside (e : Entry)
  /-- `spinlock_release`: about to reset `lk->lock_holder`. -/
  | disown (e : Entry)
  /-- `spinlock_release`: about to exchange `lk->lock` with 0. -/
  | clear (e : Entry)
  deriving DecidableEq, Repr

namespace LockPc

/-- The access of CPU `c`: where it continues, and the lock afterwards. -/
def access (c : ℕ) (lk : Spinlock) : LockPc → LockPc × Spinlock
  | idle => (idle, lk)
  | wait => if lk.lock ≠ 0 then (wait, lk) else (own .acquire, lk)
  | exchange =>
    -- the old value is returned, and only 0 means success
    if lk.lock = 0 then (own .tryAcquire, { lk with lock := 1 })
    else (idle, { lk with lock := 1 })
  | own e => (inside e, { lk with lockHolder := c })
  | inside e => (inside e, lk)
  | disown e => (clear e, { lk with lockHolder := spinlockNumCpus + 1 })
  | clear _ => (idle, { lk with lock := 0 })

/-- The function the CPU opened its section by, from the access that decided it
to the one that gives the lock back. -/
def section? : LockPc → Option Entry
  | own e | inside e | disown e | clear e => some e
  | _ => none

/-- The access may open a section. -/
def Enters (lk : Spinlock) : LockPc → Prop
  | wait => lk.lock = 0
  | exchange => True
  | _ => False

end LockPc

/-- One lock and all CPUs; those that do not take part stay idle. -/
structure LockSys where
  lk : Spinlock
  pc : ℕ → LockPc

namespace LockSys

def init : LockSys := { lk := spinlockInit, pc := fun _ => .idle }

def setPc (s : LockSys) (c : ℕ) (p : LockPc) : LockSys :=
  { s with pc := update s.pc c p }

/-- CPU `c` makes its next access. -/
def access (s : LockSys) (c : ℕ) : LockSys :=
  { lk := ((s.pc c).access c s.lk).2,
    pc := update s.pc c ((s.pc c).access c s.lk).1 }

/-- One atomic step; `ok` restricts the accesses. -/
inductive Step (ok : LockSys → ℕ → Prop) : LockSys → LockSys → Prop
  | spinlockAcquire {s : LockSys} (c : ℕ) (hc : s.pc c = .idle) : Step ok s (s.setPc c .wait)
  | spinlockTryAcquire {s : LockSys} (c : ℕ) (hc : s.pc c = .idle) :
    Step ok s (s.setPc c .exchange)
  -- a CPU releases only a lock it acquired
  | spinlockRelease {s : LockSys} (c : ℕ) (e : Entry) (hc : s.pc c = .inside e) :
    Step ok s (s.setPc c (.disown e))
  | access {s : LockSys} (c : ℕ) (hok : ok s c) : Step ok s (s.access c)

/-- The states some interleaving leads to. -/
def Reachable (ok : LockSys → ℕ → Prop) : LockSys → Prop := Relation.ReflTransGen (Step ok) init

/-- At most one CPU is between the return of an acquire and its next release. -/
def Exclusive (s : LockSys) : Prop :=
  ∀ c d e e', s.pc c = .inside e → s.pc d = .inside e' → c = d

/-- No CPU comes out of the wait loop of `spinlock_acquire` or executes the
exchange of `spinlock_try_acquire` while another CPU is in a section it opened
by `spinlock_acquire`. -/
def LeavesAlone (s : LockSys) (c : ℕ) : Prop :=
  (s.pc c).Enters s.lk → ∀ d, d ≠ c → (s.pc d).section? ≠ some .acquire

/-! ### Two holders -/

/-- **`spinlock_acquire` does not exclude**: it never writes `lk->lock`, so two
CPUs read 0 one after the other and both return. -/
theorem spinlock_acquire_both : ∃ s, Reachable (fun _ _ => True) s ∧
    s.pc 0 = .inside .acquire ∧ s.pc 1 = .inside .acquire ∧ ¬ s.Exclusive := by
  have call : ∀ {s : LockSys} (c : ℕ), s.pc c = .idle → Reachable (fun _ _ => True) s →
      Reachable (fun _ _ => True) (((s.setPc c .wait).access c).access c) := fun c hc hs =>
    ((hs.tail (.spinlockAcquire c hc)).tail (.access c trivial)).tail (.access c trivial)
  have hs := call 1 rfl (call 0 rfl .refl)
  refine ⟨_, hs, rfl, rfl, fun hex => ?_⟩
  exact absurd (hex 0 1 .acquire .acquire rfl rfl) (by decide)

/-! ### Exclusion -/

/-- Sections do not overlap, and the exchange of the one that is open by
`spinlock_try_acquire` is still in `lk->lock`. -/
structure Inv (s : LockSys) : Prop where
  one : ∀ c d, (s.pc c).section?.isSome → (s.pc d).section?.isSome → c = d
  locked : ∀ c, (s.pc c).section? = some .tryAcquire → s.lk.lock ≠ 0

theorem inv_init : init.Inv := by
  constructor <;> simp [init, LockPc.section?]

variable {c : ℕ} {s : LockSys}

/-- CPU `c` goes on at `p` and leaves the lock as `lk`: enough for the invariant
is that it is alone in its section, and that the lock word is set if an exchange
is still out. -/
theorem Inv.update (h : s.Inv) {p : LockPc} {lk : Spinlock}
    (hone : p.section?.isSome → ∀ d, d ≠ c → (s.pc d).section? = none)
    (hlock : lk.lock = 0 → p.section? ≠ some .tryAcquire ∧
      ∀ d, d ≠ c → (s.pc d).section? ≠ some .tryAcquire) :
    Inv { lk := lk, pc := Function.update s.pc c p } := by
  constructor
  · intro a b ha hb
    dsimp only at ha hb
    by_cases hac : a = c <;> by_cases hbc : b = c
    · exact hac.trans hbc.symm
    · rw [hac, update_self] at ha
      rw [update_of_ne hbc, hone ha b hbc] at hb
      simp at hb
    · rw [hbc, update_self] at hb
      rw [update_of_ne hac, hone hb a hac] at ha
      simp at ha
    · rw [update_of_ne hac] at ha
      rw [update_of_ne hbc] at hb
      exact h.one a b ha hb
  · intro a ha hl
    dsimp only at ha hl
    by_cases hac : a = c
    · rw [hac, update_self] at ha
      exact (hlock hl).1 ha
    · rw [update_of_ne hac] at ha
      exact (hlock hl).2 a hac ha

/-- A CPU in a section is there alone. -/
theorem Inv.others (h : s.Inv) (hc : (s.pc c).section?.isSome) {d : ℕ}
    (hd : d ≠ c) : (s.pc d).section? = none := by
  by_contra hne
  exact hd (h.one d c (Option.isSome_iff_ne_none.mpr hne) hc)

/-- A CPU moves within the section it is in, and keeps the lock word. -/
theorem Inv.move (h : s.Inv) {p : LockPc} {lk : Spinlock}
    (hp : p.section? = (s.pc c).section?) (hl : lk.lock = s.lk.lock) :
    Inv { lk := lk, pc := Function.update s.pc c p } := by
  refine h.update (fun hs d hd => h.others (hp ▸ hs) hd) fun h0 => ?_
  rw [hl] at h0
  rw [hp]
  exact ⟨fun he => h.locked c he h0, fun d _ he => h.locked d he h0⟩

/-- Nobody is in a section when a CPU that keeps to the rule comes to one. -/
theorem Inv.alone (h : s.Inv) (hok : s.LeavesAlone c)
    (hent : (s.pc c).Enters s.lk) (hlock : s.lk.lock = 0) {d : ℕ} (hd : d ≠ c) :
    (s.pc d).section? = none := by
  cases hsec : (s.pc d).section? with
  | none => rfl
  | some e =>
    cases e with
    | acquire => exact absurd hsec (hok hent d hd)
    | tryAcquire => exact absurd hlock (h.locked d hsec)

theorem Inv.access (h : s.Inv) (hok : s.LeavesAlone c) : (s.access c).Inv := by
  unfold LockSys.access
  cases hpc : s.pc c with
  | idle | inside | own | disown => exact h.move (by rw [hpc]; rfl) rfl
  | wait =>
    by_cases hl : s.lk.lock = 0
    · have halone := fun d (hd : d ≠ c) => h.alone hok (by rw [hpc]; exact hl) hl hd
      rw [LockPc.access, if_neg (not_not.mpr hl)]
      refine h.update (fun _ => halone) fun _ => ⟨by simp [LockPc.section?], fun d hd => ?_⟩
      rw [halone d hd]
      simp
    · rw [LockPc.access, if_pos hl]
      exact h.move (by rw [hpc]) rfl
  | exchange =>
    by_cases hl : s.lk.lock = 0
    · have halone := fun d (hd : d ≠ c) => h.alone hok (by rw [hpc]; trivial) hl hd
      rw [LockPc.access, if_pos hl]
      exact h.update (fun _ => halone) (by simp)
    · rw [LockPc.access, if_neg hl]
      exact h.update (by simp [LockPc.section?]) (by simp)
  | clear e =>
    -- the only open section is closed
    refine h.update (by simp [LockPc.access, LockPc.section?]) fun _ => ⟨by
      simp [LockPc.access, LockPc.section?], fun d hd => ?_⟩
    rw [h.others (by rw [hpc]; rfl) hd]
    simp

theorem inv_of_step {s' : LockSys} (h : s.Inv) (hstep : Step LeavesAlone s s') : s'.Inv := by
  cases hstep with
  | spinlockAcquire _ hc | spinlockTryAcquire _ hc | spinlockRelease _ _ hc =>
    exact h.move (by rw [hc]; rfl) rfl
  | access c hok => exact h.access hok

theorem inv_of_run (hrun : Reachable LeavesAlone s) : s.Inv := by
  induction hrun with
  | refl => exact inv_init
  | tail _ hstep ih => exact inv_of_step ih hstep

/-- **Mutual exclusion** in every interleaving in which sections opened by
`spinlock_acquire` are left alone.  Sections opened by `spinlock_try_acquire`
need no such care: the exchange keeps every other CPU out. -/
theorem spinlock_exclusive {s : LockSys} (hrun : Reachable LeavesAlone s) : s.Exclusive :=
  fun c d _ _ hc hd => (inv_of_run hrun).one c d (by rw [hc]; rfl) (by rw [hd]; rfl)

/-- CPU 0 takes the lock with an exchange; CPU 1 then waits for it in
`spinlock_acquire`. -/
theorem spinlock_exclusive_tryAcquire : ∃ s, Reachable LeavesAlone s ∧
    s.pc 0 = .inside .tryAcquire ∧ s.pc 1 = .wait ∧ s.Exclusive := by
  have quiet : ∀ {s : LockSys} {c : ℕ}, (∀ d, (s.pc d).section? ≠ some .acquire) →
      s.LeavesAlone c := fun h _ d _ => h d
  have h₁ : Reachable LeavesAlone (init.setPc 0 .exchange) :=
    Relation.ReflTransGen.refl.tail (.spinlockTryAcquire 0 rfl)
  have h₂ := h₁.tail (.access 0 (quiet fun d => by
    by_cases hd : d = 0 <;> simp [setPc, init, LockPc.section?, hd]))
  have h₃ := h₂.tail (.access 0 (quiet fun d => by
    by_cases hd : d = 0 <;>
      simp [LockSys.access, setPc, init, LockPc.access, spinlockInit, LockPc.section?, hd]))
  have h₄ := h₃.tail (.spinlockAcquire 1 rfl)
  have h₅ := h₄.tail (.access 1 fun hent => absurd hent Nat.one_ne_zero)
  exact ⟨_, h₅, rfl, rfl, spinlock_exclusive h₅⟩

end LockSys

end Mcertikos
