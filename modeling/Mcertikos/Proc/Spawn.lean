/-
Process creation (`sys_spawn`, `proc_create`, the first steps of `kern_main`).

`sys_spawn` tests the requested quota and the number of children before it
calls `proc_create`, but

* the tests read the containers of the local `curid` before it is assigned, so
  of whatever value its stack slot holds;
* the quota test adds 32-bit words, and the sum can wrap;
* its limits are the `NUM_IDS` and `MAX_CHILDREN` of `TSyscall.c` (256 and 16),
  while `container_split` numbers children by those of `lib/x86.h` (64 and 3).

`SpawnCall.Sound` names the calls that stay clear of all three, and
`SpawnInv` is the invariant of the runs made of such calls (with page
allocations and frees of the processes in between): `spawnInv_step`,
`spawnInv_of_run`.
-/
import Mcertikos.Pmm.Quota

namespace Mcertikos

open AllocTable Pmm

/-- The error numbers `sys_spawn` reports. -/
inductive SpawnErrno where
  | E_SUCC
  | E_EXCEEDS_QUOTA
  | E_MAX_NUM_CHILDEN_REACHED
  | E_INVAL_CHILD_ID
  | E_INVAL_PID
  deriving DecidableEq, Repr

/-- `MAX_CHILDREN` as `TSyscall.c` defines it. -/
def syscallMaxChildren : ℕ := 16

/-- A 32-bit word read as an `int`. -/
def asInt (w : ℕ) : ℤ := if w < 2 ^ 31 then w else (w : ℤ) - 2 ^ 32

/-- What a call of `sys_spawn` depends on: the calling process, the value in
the stack slot of the local `curid` before its assignment, and the arguments. -/
structure SpawnCall where
  caller : ℕ
  slot : ℕ
  elfId : ℕ
  quota : ℕ
  slot_lt : slot < 2 ^ 32
  elfId_lt : elfId < 2 ^ 32
  quota_lt : quota < 2 ^ 32

/-- `elf_load` as far as containers are concerned: `n` calls of
`container_alloc` for the new process. -/
def elfLoad (s : Pmm) (pid : ℕ) : ℕ → Pmm
  | 0 => s
  | n + 1 => ((elfLoad s pid n).containerAlloc pid).2

/-- `proc_create` for the process `id`; `pages` is the number of pages loading
the image takes. -/
def procCreate (s : Pmm) (id quota pages : ℕ) : ℕ × Pmm :=
  let (pid, s₁) := s.containerSplit id quota
  if pid = numIds then (numIds, s₁) else (pid, elfLoad s₁ pid pages)

/-- `sys_spawn`: error number, first return value and state.  `elfPages` gives
the size of each of the four images. -/
def sysSpawn (elfPages : ℕ → ℕ) (s : Pmm) (c : SpawnCall) : SpawnErrno × ℕ × Pmm :=
  let qok := s.containerCanConsume c.slot c.quota
  let nc := s.containerGetNchildren c.slot
  let curid := c.caller
  if qok = false then (.E_EXCEEDS_QUOTA, syscallNumIds, s)
  else if syscallNumIds < (curid * syscallMaxChildren + 1 + syscallMaxChildren) % 2 ^ 32 then
    (.E_MAX_NUM_CHILDEN_REACHED, syscallNumIds, s)
  else if nc = syscallMaxChildren then (.E_INVAL_CHILD_ID, syscallNumIds, s)
  else if c.elfId = 1 ∨ c.elfId = 2 ∨ c.elfId = 3 ∨ c.elfId = 4 then
    let (newPid, s') := procCreate s curid c.quota (elfPages c.elfId)
    if newPid = syscallNumIds then (.E_INVAL_PID, syscallNumIds, s')
    else (.E_SUCC, newPid, s')
  else (.E_INVAL_PID, syscallNumIds, s)

/-- The state after `kern_main` has created the processes `idle` and `ding`. -/
def kernMain (mm : List MmRow) (beyond : ℕ → SContainer) (idlePages dingPages : ℕ) : Pmm :=
  (procCreate (procCreate (containerInit mm beyond) 0 1000 idlePages).2 0 1000 dingPages).2

/-! ### Runs -/

/-- The processes in existence, apart from the kernel's own id `0`. -/
def Pmm.Running (s : Pmm) (id : ℕ) : Prop := 1 ≤ id ∧ id < numIds ∧ (s.CONTAINER id).used ≠ 0

/-- What `sys_spawn` promises: a call that reports success grants at most what
the caller has left, and returns an id that was free. -/
def SpawnCall.Safe (elfPages : ℕ → ℕ) (s : Pmm) (c : SpawnCall) : Prop :=
  (sysSpawn elfPages s c).1 = .E_SUCC →
    (c.quota : ℤ) ≤ asInt (s.CONTAINER c.caller).quota - asInt (s.CONTAINER c.caller).usage ∧
    (sysSpawn elfPages s c).2.1 < numIds ∧
    (s.CONTAINER (sysSpawn elfPages s c).2.1).used = 0

/-- The tests of `sys_spawn` let the call through. -/
def SpawnCall.Passes (s : Pmm) (c : SpawnCall) : Prop :=
  s.containerCanConsume c.slot c.quota = true ∧
  (c.caller * syscallMaxChildren + 1 + syscallMaxChildren) % 2 ^ 32 ≤ syscallNumIds ∧
  s.containerGetNchildren c.slot ≠ syscallMaxChildren ∧
  (c.elfId = 1 ∨ c.elfId = 2 ∨ c.elfId = 3 ∨ c.elfId = 4)

/-- A call the tests reject, or one whose stack slot happens to hold the
caller's id, whose quota sum does not wrap and whose caller has a child slot
left. -/
def SpawnCall.Sound (s : Pmm) (c : SpawnCall) : Prop :=
  c.Passes s →
    c.slot = c.caller ∧ (s.CONTAINER c.caller).usage + c.quota < 2 ^ 32 ∧
    (s.CONTAINER c.caller).nchildren < maxChildren

/-- One step of the system: a process spawns, takes a page or returns one. -/
inductive SpawnStep (elfPages : ℕ → ℕ) : Pmm → Pmm → Prop where
  | spawn (s : Pmm) (c : SpawnCall) (hc : s.Running c.caller) (hs : c.Sound s) :
      SpawnStep elfPages s (sysSpawn elfPages s c).2.2
  | alloc (s : Pmm) (id : ℕ) (hid : s.Running id) :
      SpawnStep elfPages s (s.containerAlloc id).2
  | free (s : Pmm) (id page : ℕ) (hid : s.Running id) :
      SpawnStep elfPages s (s.containerFree id page)

/-- The invariant of the runs of sound calls: usage stays within a quota that
is a nonnegative `int`, and a container in use was counted by its parent. -/
structure SpawnInv (s : Pmm) : Prop where
  quota : ∀ id, s.Running id →
    (s.CONTAINER id).usage ≤ (s.CONTAINER id).quota ∧ (s.CONTAINER id).quota < 2 ^ 31
  counted : s.Counted

/-! ### Page allocations between spawns -/

variable {elfPages : ℕ → ℕ} {s s' : Pmm}

theorem SpawnInv.charge {id u : ℕ} {t : AllocTable} (h : SpawnInv s)
    (hu : u ≤ (s.CONTAINER id).quota) : SpawnInv (s.charge id u t) := by
  refine ⟨fun x ⟨h1, h2, h3⟩ => ?_, h.counted.charge⟩
  rw [(charge_fields s id u t x).1] at h3
  obtain ⟨hle, hlt⟩ := h.quota x ⟨h1, h2, h3⟩
  by_cases he : x = id
  · subst he
    simpa using ⟨hu, hlt⟩
  · simpa [setContainer_other s _ he] using ⟨hle, hlt⟩

theorem SpawnInv.alloc (h : SpawnInv s) {id : ℕ} (hid : s.Running id) :
    SpawnInv (s.containerAlloc id).2 := by
  obtain ⟨hle, hlt⟩ := h.quota id hid
  rcases containerAlloc_cases s id with ⟨_, he⟩ | ⟨hq, c, rfl, hc⟩
  · rw [he]
    exact h
  · have hmod : ((s.CONTAINER id).usage + 1) % 2 ^ 32 = (s.CONTAINER id).usage + 1 :=
      Nat.mod_eq_of_lt (by omega)
    rcases hc with ⟨_, he⟩ | ⟨p, _, _, _, _, he⟩
    · rw [he, hmod]
      exact h.charge (by omega)
    · rw [he, hmod]
      exact h.charge (by omega)

theorem SpawnInv.free (h : SpawnInv s) {id : ℕ} (hid : s.Running id) (page : ℕ) :
    SpawnInv (s.containerFree id page) := by
  have hle := (h.quota id hid).1
  unfold containerFree
  split
  · dsimp only
    split
    · exact h.charge (t := s.tbl.pfree page) (by omega)
    · exact ⟨h.quota, h.counted⟩
  · exact h

theorem running_containerAlloc (s : Pmm) (id x : ℕ) :
    ((s.containerAlloc id).2.CONTAINER x).used = (s.CONTAINER x).used := by
  rcases containerAlloc_cases s id with ⟨_, he⟩ | ⟨_, c, rfl, hc⟩
  · rw [he]
  · rcases hc with ⟨_, he⟩ | ⟨p, _, _, _, _, he⟩
    · rw [he]
      exact (charge_fields s id _ _ x).1
    · rw [he]
      exact (charge_fields s id _ _ x).1

/-- Loading an image is a sequence of page allocations of the new process. -/
theorem SpawnInv.elfLoad (h : SpawnInv s) {pid : ℕ} (hp : s.Running pid) (n : ℕ) :
    SpawnInv (Mcertikos.elfLoad s pid n) ∧ (Mcertikos.elfLoad s pid n).Running pid := by
  induction n with
  | zero => exact ⟨h, hp⟩
  | succ n ih =>
    obtain ⟨hinv, h1, h2, h3⟩ := ih
    refine ⟨hinv.alloc ⟨h1, h2, h3⟩, h1, h2, ?_⟩
    rw [Mcertikos.elfLoad, running_containerAlloc]
    exact h3

/-! ### Spawning -/

/-- A call the tests reject changes nothing and reports no success. -/
theorem sysSpawn_of_not_passes {c : SpawnCall} (h : ¬ c.Passes s) :
    (sysSpawn elfPages s c).1 ≠ .E_SUCC ∧ (sysSpawn elfPages s c).2.2 = s := by
  unfold sysSpawn
  dsimp only
  by_cases h1 : s.containerCanConsume c.slot c.quota = false
  · simp [h1]
  rw [if_neg h1]
  by_cases h2 : syscallNumIds < (c.caller * syscallMaxChildren + 1 + syscallMaxChildren) % 2 ^ 32
  · rw [if_pos h2]
    exact ⟨by simp, rfl⟩
  rw [if_neg h2]
  by_cases h3 : s.containerGetNchildren c.slot = syscallMaxChildren
  · simp [h3]
  rw [if_neg h3]
  by_cases h4 : c.elfId = 1 ∨ c.elfId = 2 ∨ c.elfId = 3 ∨ c.elfId = 4
  · exact absurd ⟨by simpa using h1, not_lt.mp h2, h3, h4⟩ h
  · simp [h4]

theorem sysSpawn_of_passes {c : SpawnCall} (h : c.Passes s) (hne : s.childIndex c.caller < numIds) :
    sysSpawn elfPages s c = (.E_SUCC, s.childIndex c.caller,
      elfLoad (s.containerSplit c.caller c.quota).2 (s.childIndex c.caller)
        (elfPages c.elfId)) := by
  obtain ⟨h1, h2, h3, h4⟩ := h
  have hpid : (s.containerSplit c.caller c.quota).1 = s.childIndex c.caller := rfl
  have hcreate : procCreate s c.caller c.quota (elfPages c.elfId) = (s.childIndex c.caller,
      elfLoad (s.containerSplit c.caller c.quota).2 (s.childIndex c.caller)
        (elfPages c.elfId)) := by
    unfold procCreate
    dsimp only
    rw [hpid, if_neg (Nat.ne_of_lt hne)]
  have hbig : s.childIndex c.caller ≠ syscallNumIds := by
    unfold syscallNumIds
    unfold numIds at hne
    omega
  unfold sysSpawn
  dsimp only
  rw [if_neg (by simp [h1]), if_neg (not_lt.mpr h2), if_neg h3, if_pos h4, hcreate, if_neg hbig]

/-- The index of the next child of a caller that passes the tests, and that it
is free. -/
theorem SpawnInv.child_fresh (h : SpawnInv s) {c : SpawnCall} (hc : s.Running c.caller)
    (hp : c.Passes s) (hnc : (s.CONTAINER c.caller).nchildren < maxChildren) :
    s.childIndex c.caller < numIds ∧ (s.CONTAINER (s.childIndex c.caller)).used = 0 := by
  obtain ⟨_, hlim, _, _⟩ := hp
  obtain ⟨h1, h2, _⟩ := hc
  unfold numIds at h2 ⊢
  unfold maxChildren at hnc
  unfold syscallMaxChildren syscallNumIds at hlim
  have hidx : s.childIndex c.caller = c.caller * 3 + 1 + (s.CONTAINER c.caller).nchildren := rfl
  -- the limit of `TSyscall.c` admits callers up to 14 only
  have hcaller : c.caller ≤ 14 := by omega
  exact ⟨by omega, h.counted.fresh hnc (by unfold numIds; omega)⟩

theorem SpawnInv.split (h : SpawnInv s) {id n : ℕ} (hused : (s.CONTAINER id).used ≠ 0)
    (hn : n < 2 ^ 31)
    (hfit : 1 ≤ id → (s.CONTAINER id).usage + n ≤ (s.CONTAINER id).quota)
    (hnc : (s.CONTAINER id).nchildren < maxChildren)
    (hfresh : (s.CONTAINER (s.childIndex id)).used = 0) :
    SpawnInv (s.containerSplit id n).2 := by
  refine ⟨fun x ⟨h1, h2, h3⟩ => ?_, h.counted.split hused hnc hfresh⟩
  by_cases hxc : x = s.childIndex id
  · rw [hxc, split_child]
    exact ⟨Nat.zero_le _, hn⟩
  · rw [(split_kept n hxc).1] at h3
    obtain ⟨hle, hlt⟩ := h.quota x ⟨h1, h2, h3⟩
    by_cases he : x = id
    · have hf := hfit (he ▸ h1)
      rw [he, split_parent n hnc]
      rw [he] at hlt
      rw [Nat.mod_eq_of_lt (by omega)]
      exact ⟨hf, hlt⟩
    · rw [split_other n he hxc]
      exact ⟨hle, hlt⟩

/-- Creating a process with a fitting quota and a free child index keeps the
invariant. -/
theorem SpawnInv.procCreate (h : SpawnInv s) (id n pages : ℕ)
    (hused : (s.CONTAINER id).used ≠ 0) (hn : n < 2 ^ 31)
    (hfit : 1 ≤ id → (s.CONTAINER id).usage + n ≤ (s.CONTAINER id).quota)
    (hnc : (s.CONTAINER id).nchildren < maxChildren)
    (hlt : s.childIndex id < numIds)
    (hfresh : (s.CONTAINER (s.childIndex id)).used = 0) :
    SpawnInv (Mcertikos.elfLoad (s.containerSplit id n).2 (s.childIndex id) pages) := by
  have hsplit := h.split hused hn hfit hnc hfresh
  have hrun : (s.containerSplit id n).2.Running (s.childIndex id) := by
    refine ⟨?_, hlt, ?_⟩
    · unfold childIndex
      omega
    · rw [split_child]
      exact one_ne_zero
  exact (hsplit.elfLoad hrun pages).1

/-- What the tests of a sound call establish about its caller. -/
theorem SpawnCall.Sound.fits {c : SpawnCall} (hs : c.Sound s) (hp : c.Passes s) :
    (s.CONTAINER c.caller).usage + c.quota ≤ (s.CONTAINER c.caller).quota := by
  obtain ⟨hslot, hwrap, _⟩ := hs hp
  obtain ⟨hok, _, _, _⟩ := hp
  rw [hslot] at hok
  unfold containerCanConsume at hok
  split at hok
  · exact absurd hok (by simp)
  · rename_i hle
    rw [Nat.mod_eq_of_lt hwrap] at hle
    exact not_lt.mp hle

/-- **One step keeps the invariant.** -/
theorem spawnInv_step (h : SpawnInv s) (hstep : SpawnStep elfPages s s') : SpawnInv s' := by
  cases hstep with
  | alloc id hid => exact h.alloc hid
  | free id page hid => exact h.free hid page
  | spawn c hc hs =>
    by_cases hp : c.Passes s
    · have hnc := (hs hp).2.2
      obtain ⟨hlt, hfresh⟩ := h.child_fresh hc hp hnc
      have hfit := hs.fits hp
      have hbig := (h.quota _ hc).2
      rw [sysSpawn_of_passes hp hlt]
      exact h.procCreate _ _ _ hc.2.2 (by omega) (fun _ => hfit) hnc hlt hfresh
    · rw [(sysSpawn_of_not_passes hp).2]
      exact h

/-- The state `kern_main` leaves behind satisfies the invariant. -/
theorem spawnInv_kernMain (mm : List MmRow) (beyond : ℕ → SContainer) (idlePages dingPages : ℕ) :
    SpawnInv (kernMain mm beyond idlePages dingPages) := by
  have hinit : SpawnInv (containerInit mm beyond) := by
    refine ⟨fun x ⟨h1, h2, h3⟩ => ?_, fun c hc h3 h0 => ?_⟩
    · simp [containerInit, h2, Nat.ne_of_gt h1] at h3
    · simp [containerInit, hc, h0] at h3
  have hc0 : (containerInit mm beyond).CONTAINER 0 = ⟨realQuota (pmemInit mm), 0, 0, 0, 1⟩ := rfl
  have hidx : (containerInit mm beyond).childIndex 0 = 1 := rfl
  have h1 := hinit.procCreate 0 1000 idlePages (by rw [hc0]; simp) (by norm_num)
    (by omega) (by rw [hc0]; exact Nat.succ_pos 2) (by rw [hidx]; decide) (by rw [hidx]; rfl)
  set s1 := elfLoad ((containerInit mm beyond).containerSplit 0 1000).2 1 idlePages with hs1
  -- loading the first image touches container 1 only
  have hkeep : ∀ n x, x ≠ 1 →
      (elfLoad ((containerInit mm beyond).containerSplit 0 1000).2 1 n).CONTAINER x
        = ((containerInit mm beyond).containerSplit 0 1000).2.CONTAINER x := by
    intro n x hx
    induction n with
    | zero => rfl
    | succ n ih =>
      rw [elfLoad]
      rcases containerAlloc_cases
        (elfLoad ((containerInit mm beyond).containerSplit 0 1000).2 1 n) 1 with
        ⟨_, he⟩ | ⟨_, c, rfl, ⟨_, he⟩ | ⟨p, _, _, _, _, he⟩⟩
      · rw [he]
        exact ih
      · rw [he]
        exact (setContainer_other _ _ hx).trans ih
      · rw [he]
        exact (setContainer_other _ _ hx).trans ih
  have hroot : s1.CONTAINER 0 = ⟨realQuota (pmemInit mm), 1000, 0, 1, 1⟩ := by
    rw [hs1, hkeep idlePages 0 (by decide), containerSplit_eq, setContainer_same, hc0]
    norm_num
  have hidx1 : s1.childIndex 0 = 2 := by
    rw [childIndex, hroot]
    rfl
  have htwo : s1.CONTAINER 2 = ⟨0, 0, 0, 0, 0⟩ := by
    rw [hs1, hkeep idlePages 2 (by decide), containerSplit_eq, hidx,
      setContainer_other _ _ (by decide), setContainer_other _ _ (by decide)]
    rfl
  have h2 := SpawnInv.procCreate (s := s1) h1 0 1000 dingPages
    (by rw [hroot]; simp) (by norm_num) (by omega) (by rw [hroot]; exact Nat.lt_of_sub_eq_succ rfl)
    (by rw [hidx1]; decide) (by rw [hidx1, htwo])
  have hk : kernMain mm beyond idlePages dingPages
      = elfLoad (s1.containerSplit 0 1000).2 (s1.childIndex 0) dingPages := by
    have hfirst : (procCreate (containerInit mm beyond) 0 1000 idlePages).2 = s1 := rfl
    rw [kernMain, hfirst, procCreate]
    dsimp only
    rw [show (s1.containerSplit 0 1000).1 = s1.childIndex 0 from rfl, hidx1, if_neg (by decide)]
  rw [hk]
  exact h2

theorem spawnInv_of_run {s0 : Pmm} (h0 : SpawnInv s0)
    (h : Relation.ReflTransGen (SpawnStep elfPages) s0 s) : SpawnInv s := by
  induction h with
  | refl => exact h0
  | tail _ hstep ih => exact spawnInv_step ih hstep

theorem asInt_of_lt {w : ℕ} (h : w < 2 ^ 31) : asInt w = w := if_pos h

/-- **Sound spawns grant only what the parent has, under a fresh id.**  In every
state reached from `kern_main` by sound `sys_spawn` calls of any running
processes (and their page allocations), a further sound call is safe. -/
theorem sound_spawn_safe (mm : List MmRow) (beyond : ℕ → SContainer) (elfPages : ℕ → ℕ)
    (idlePages dingPages : ℕ) (s : Pmm)
    (h : Relation.ReflTransGen (SpawnStep elfPages) (kernMain mm beyond idlePages dingPages) s)
    (c : SpawnCall) (hc : s.Running c.caller) (hs : c.Sound s) : c.Safe elfPages s := by
  have hinv := spawnInv_of_run (spawnInv_kernMain mm beyond idlePages dingPages) h
  intro hsucc
  by_cases hp : c.Passes s
  · obtain ⟨hlt, hfresh⟩ := hinv.child_fresh hc hp (hs hp).2.2
    have hfit := hs.fits hp
    obtain ⟨_, hq⟩ := hinv.quota _ hc
    rw [sysSpawn_of_passes hp hlt, asInt_of_lt hq, asInt_of_lt (by omega)]
    exact ⟨by omega, hlt, hfresh⟩
  · exact absurd hsucc (sysSpawn_of_not_passes hp).1

/-- The state after booting with an `idle` image of two pages and a `ding` image
of one. -/
def smallBoot : Pmm := kernMain threeGigabytes zeroMem 2 1

/-- Process 1 asks for ten pages; the slot of `curid` holds its id. -/
def goodSlotCall : SpawnCall := ⟨1, 1, 1, 10, by norm_num, by norm_num, by norm_num⟩

/-- Process 1 asks for 999 pages while the slot of `curid` holds 2. -/
def staleSlotCall : SpawnCall := ⟨1, 2, 1, 999, by norm_num, by norm_num, by norm_num⟩

theorem sound_spawn_safe_boot :
    (sysSpawn (fun _ => 1) smallBoot goodSlotCall).1 = .E_SUCC ∧
      goodSlotCall.Safe (fun _ => 1) smallBoot :=
  ⟨by decide, sound_spawn_safe threeGigabytes zeroMem (fun _ => 1) 2 1 smallBoot .refl
    goodSlotCall ⟨by decide, by decide, by decide⟩
    fun _ => ⟨by decide, by decide, by decide⟩⟩

/-- The stale slot makes `sys_spawn` test the quota of process 2 (one page used)
for process 1 (two pages used): it grants 999 pages where 998 are left. -/
theorem stale_slot_breaks_quota :
    smallBoot.Running staleSlotCall.caller ∧ ¬ staleSlotCall.Safe (fun _ => 1) smallBoot := by
  refine ⟨⟨by decide, by decide, by decide⟩, fun hsafe => ?_⟩
  have hq := (hsafe (by decide)).1
  revert hq
  decide

end Mcertikos
