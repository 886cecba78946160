/-
Path names.

* `components` — the maximal pieces of a path without '/';
* `skipelem_eq` — `skipelem` takes the first of them;
* `Afs.walk`, `Afs.walkParent` — following components from directory to directory;
* `acts_namex` — `namex` returns what the walk leads to, with a reference and nothing else.

Design notes: the loop of `namex` holds one reference at a time, and gives it back after it
has taken the next one.  What it holds is written as `a.addRef ip x` over the state `a` in
which the call began.
-/
import Mcertikos.Fs.Dirs

namespace Mcertikos

namespace Fs

open List Prog Budget Splice

/-! ### Components -/

/-- The maximal non-empty pieces of a path without '/'. -/
def components (path : Bytes) : List Bytes := (path.splitOnP (· = slash)).filter (· ≠ [])

theorem components_nil : components [] = [] := by
  unfold components
  rw [splitOnP_nil]
  rfl

theorem components_slash (path : Bytes) : components (slash :: path) = components path := by
  unfold components
  rw [splitOnP_cons_eq_if_modifyHead, if_pos (by simp), filter_cons_of_neg (by simp)]

theorem components_dropWhile (path : Bytes) :
    components (path.dropWhile (· = slash)) = components path := by
  induction path with
  | nil => rfl
  | cons c path ih =>
    by_cases hc : c = slash
    · subst hc
      rw [dropWhile_cons_of_pos (by simp), ih, components_slash]
    · rw [dropWhile_cons_of_neg (by simpa using hc)]

/-- A path that does not begin with '/'. -/
theorem components_of_ne {start : Bytes} (hne : start ≠ []) (hhead : start.head? ≠ some slash) :
    components start = start.takeWhile (· ≠ slash) :: components (start.dropWhile (· ≠ slash)) := by
  have hw : start.takeWhile (fun c => decide (c ≠ slash)) ≠ [] := by
    cases start with
    | nil => exact absurd rfl hne
    | cons c rest =>
      rw [takeWhile_cons_of_pos (by simpa using hhead)]
      exact cons_ne_nil _ _
  have hall : ∀ c ∈ start.takeWhile (fun c => decide (c ≠ slash)), decide (c = slash) = false := by
    intro c hc
    simpa using mem_takeWhile_imp hc
  have hsplit : start.takeWhile _ ++ start.dropWhile _ = start :=
    takeWhile_append_dropWhile (p := fun c => decide (c ≠ slash))
  cases hrest : start.dropWhile (fun c => decide (c ≠ slash)) with
  | nil =>
    rw [hrest, append_nil] at hsplit
    rw [components_nil]
    conv_lhs => rw [← hsplit]
    unfold components
    rw [splitOnP_eq_singleton hall, filter_cons_of_pos (by simpa using hw)]
    rfl
  | cons c rest =>
    have hc : c = slash := by
      have := head?_dropWhile_not (fun c => decide (c ≠ slash)) start
      rw [hrest] at this
      simpa using this
    rw [hrest, hc] at hsplit
    rw [hc, components_slash]
    conv_lhs => rw [← hsplit]
    unfold components
    rw [splitOnP_append_cons_of_forall_mem hall _ (by simp), filter_cons_of_pos (by simpa using hw)]

theorem head?_dropWhile_slash (path : Bytes) : (path.dropWhile (· = slash)).head? ≠ some slash := by
  intro h
  have := head?_dropWhile_not (fun c => decide (c = slash)) path
  rw [h] at this
  simp at this

/-- `skipelem` at the end of a path. -/
theorem skipelem_none {path : Bytes} : skipelem path = none ↔ components path = [] := by
  unfold skipelem
  dsimp only
  by_cases h : path.dropWhile (· = slash) = []
  · rw [if_pos h, ← components_dropWhile, h, components_nil]
    exact iff_of_true rfl rfl
  · rw [if_neg h, ← components_dropWhile, components_of_ne h (head?_dropWhile_slash path)]
    simp

/-- **`skipelem`** takes the first component, and what it leaves is empty only when there is no
other. -/
theorem skipelem_some {path name rest : Bytes} (h : skipelem path = some (name, rest)) :
    ∃ c, components path = c :: components rest ∧ name = c.take (dirsiz - 1) ∧
      rest.length < path.length ∧ (rest = [] ↔ components rest = []) := by
  unfold skipelem at h
  dsimp only at h
  split_ifs at h with hstart
  cases h
  set start := path.dropWhile (fun c => decide (c = slash))
  have hhead : start.head? ≠ some slash := head?_dropWhile_slash path
  refine ⟨start.takeWhile (· ≠ slash), ?_, rfl, ?_, ?_⟩
  · rw [← components_dropWhile path, components_of_ne hstart hhead, components_dropWhile]
  · have h1 : start.length ≤ path.length := length_dropWhile_le _ _
    have h2 : ((start.dropWhile (fun c => decide (c ≠ slash))).dropWhile
        (fun c => decide (c = slash))).length ≤ (start.dropWhile (fun c => decide (c ≠ slash))).length :=
      length_dropWhile_le _ _
    have h3 : (start.dropWhile (fun c => decide (c ≠ slash))).length < start.length := by
      cases hst : start with
      | nil => exact absurd hst hstart
      | cons c rest =>
        rw [hst] at hhead
        rw [dropWhile_cons_of_pos (by simpa using hhead)]
        exact Nat.lt_succ_of_le (length_dropWhile_le _ _)
    omega
  · refine ⟨fun h => by rw [h, components_nil], fun h => ?_⟩
    by_contra hne
    rw [components_of_ne hne (head?_dropWhile_slash _)] at h
    cases h

/-! ### Following components -/

/-- The inode that the components lead to. -/
def Afs.walk (a : Afs) : List Bytes → ℕ → Option ℕ
  | [], x => some x
  | c :: cs, x =>
    if (a.node x).type = tDir then
      (dirMap (a.node x).data (c.take (dirsiz - 1))).bind (a.walk cs)
    else none

/-- The directory that all components but the last lead to, and the last. -/
def Afs.walkParent (a : Afs) (cs : List Bytes) (x : ℕ) : Option (ℕ × Bytes) :=
  cs.getLast?.bind fun c => (a.walk cs.dropLast x).bind fun y =>
    if (a.node y).type = tDir then some (y, c.take (dirsiz - 1)) else none

/-- What the loop of `namex` computes. -/
def Afs.resolve (a : Afs) (parent : Bool) : List Bytes → ℕ → Bytes → Option (ℕ × Bytes)
  | [], x, name => if parent then none else some (x, name)
  | c :: cs, x, _ =>
    if (a.node x).type ≠ tDir then none
    else if parent = true ∧ cs = [] then some (x, c.take (dirsiz - 1))
    else (dirMap (a.node x).data (c.take (dirsiz - 1))).bind fun y =>
      a.resolve parent cs y (c.take (dirsiz - 1))

section Walk

variable {a : Afs} {x : ℕ}

theorem Afs.resolve_false (cs : List Bytes) (x : ℕ) (name : Bytes) :
    (a.resolve false cs x name).map Prod.fst = a.walk cs x := by
  induction cs generalizing x name with
  | nil => rfl
  | cons c cs ih =>
    unfold resolve walk
    by_cases hdir : (a.node x).type = tDir
    · rw [if_neg (not_not.mpr hdir), if_neg (fun h => nomatch h.1), if_pos hdir]
      cases dirMap (a.node x).data (c.take (dirsiz - 1)) with
      | none => rfl
      | some y => exact ih y _
    · rw [if_pos hdir, if_neg hdir]
      rfl

theorem Afs.resolve_true (cs : List Bytes) (x : ℕ) (name : Bytes) :
    a.resolve true cs x name = a.walkParent cs x := by
  induction cs generalizing x name with
  | nil => rfl
  | cons c cs ih =>
    unfold resolve
    cases cs with
    | nil =>
      have hlast : true = true ∧ ([] : List Bytes) = [] := ⟨rfl, rfl⟩
      rw [ite_not, if_pos hlast]
      rfl
    | cons c' cs =>
      have hlast : (c :: c' :: cs).getLast? = (c' :: cs).getLast? := getLast?_cons_cons
      have hmore : ¬ (true = true ∧ c' :: cs = []) := fun h => nomatch h.2
      rw [if_neg hmore]
      unfold walkParent at ih ⊢
      rw [hlast, dropLast_cons_of_ne_nil (cons_ne_nil _ _)]
      unfold walk
      by_cases hdir : (a.node x).type = tDir
      · rw [if_neg (not_not.mpr hdir), if_pos hdir]
        cases dirMap (a.node x).data (c.take (dirsiz - 1)) with
        | none => simp
        | some y => exact ih y (c.take (dirsiz - 1))
      · rw [if_pos hdir, if_neg hdir]
        simp

end Walk

/-! ### References -/

section References

namespace Afs

variable {a : Afs} {i j x y : ℕ} {s : Slot}

theorem setSlot_comm (a : Afs) (h : i ≠ j) (s s' : Option Slot) :
    (a.setSlot i s).setSlot j s' = (a.setSlot j s').setSlot i s := by
  unfold setSlot
  dsimp only
  rw [Function.update_comm h]

theorem addRef_slot (a : Afs) (i x : ℕ) :
    (a.addRef i x).slot i = some ((a.slot i).elim (.first x) Slot.more) := a.setSlot_self ..

theorem addRef_comm (a : Afs) (h : i ≠ j) (x y : ℕ) :
    (a.addRef i x).addRef j y = (a.addRef j y).addRef i x := by
  unfold addRef
  rw [a.setSlot_other _ h.symm, a.setSlot_other _ h, a.setSlot_comm h]

theorem lock_addRef (hs : a.slot i = some s) (j y : ℕ) :
    (a.lock i).addRef j y = (a.addRef j y).lock i := by
  by_cases h : j = i
  · subst h
    have hmore : (a.setSlot j (some s.more)).slot j = some s.more := a.setSlot_self ..
    rw [lock_of_some hs, addRef_of_some (a.setSlot_self ..), addRef_of_some hs, lock_of_some hmore,
      setSlot_setSlot, setSlot_setSlot]
    rfl
  · have hs' : (a.addRef j y).slot i = some s := (a.addRef_slot_other y (Ne.symm h)).trans hs
    rw [lock_of_some hs, lock_of_some hs']
    unfold addRef
    rw [a.setSlot_other _ h, a.setSlot_comm (Ne.symm h)]

theorem Has.addRef (h : a.Has x) (j y : ℕ) : (a.addRef j y).Has x := by
  obtain ⟨i, s, hs, rfl⟩ := h
  by_cases hi : i = j
  · subst hi
    refine ⟨i, s.more, ?_, rfl⟩
    rw [addRef_slot, hs]
    rfl
  · exact ⟨i, s, (a.addRef_slot_other y hi).trans hs, rfl⟩

theorem SlotFor.slot (h : a.SlotFor i x) : ∃ s, (a.addRef i x).slot i = some s ∧ s.inum = x := by
  refine ⟨_, a.addRef_slot i x, ?_⟩
  rcases h with ⟨hs, -⟩ | ⟨s, hs, rfl⟩
  · rw [hs]
    rfl
  · rw [hs]
    rfl

theorem SlotFor.eq (hx : a.SlotFor i x) (hy : (a.addRef i x).SlotFor i y) : x = y := by
  obtain ⟨s, hs, hinum⟩ := hx.slot
  rcases hy with ⟨hs', -⟩ | ⟨s', hs', hinum'⟩
  · rw [hs] at hs'
    cases hs'
  · rw [hs] at hs'
    cases hs'
    exact hinum.symm.trans hinum'

/-- The slots for two references do not depend on their order. -/
theorem SlotFor.swap (hx : a.SlotFor i x) (hy : (a.addRef i x).SlotFor j y) :
    a.SlotFor j y ∧ (a.addRef j y).SlotFor i x := by
  by_cases h : j = i
  · subst h
    obtain rfl := hx.eq hy
    exact ⟨hx, hy⟩
  · have hy' := hy
    rw [SlotFor, a.addRef_slot_other x h] at hy'
    refine ⟨hy'.imp_left fun ⟨hs, hno⟩ => ⟨hs, fun hhas => hno (hhas.addRef i x)⟩, ?_⟩
    rw [SlotFor, a.addRef_slot_other y (Ne.symm h)]
    refine hx.imp_left fun ⟨hs, hno⟩ => ⟨hs, ?_⟩
    rintro ⟨k, s, hk, rfl⟩
    -- only the second reference could have brought the inode
    by_cases hkj : k = j
    · subst hkj
      rcases hy' with ⟨hk', hno'⟩ | ⟨s', hk', rfl⟩
      · rw [addRef_of_none hk', a.setSlot_self] at hk
        cases hk
        obtain ⟨s', hs', hinum⟩ := hx.slot
        exact hno' ⟨i, s', hs', hinum⟩
      · rw [addRef_of_some hk', a.setSlot_self] at hk
        cases hk
        exact hno ⟨k, s', hk', rfl⟩
    · exact hno ⟨k, s, (a.addRef_slot_other y hkj).symm.trans hk, rfl⟩

theorem SlotFor.of_lock (hs : a.slot i = some s) (h : (a.lock i).SlotFor j y) : a.SlotFor j y := by
  by_cases hj : j = i
  · subst hj
    right
    rcases h with ⟨hs', -⟩ | ⟨s', hs', hinum⟩
    · rw [lock_of_some hs, a.setSlot_self] at hs'
      cases hs'
    · rw [lock_of_some hs, a.setSlot_self] at hs'
      cases hs'
      exact ⟨s, hs, hinum⟩
  · rw [SlotFor, lock, a.setSlot_other _ hj] at h
    refine h.imp_left fun ⟨hs', hno⟩ => ⟨hs', fun ⟨k, s', hk, hinum⟩ => ?_⟩
    by_cases hki : k = i
    · subst hki
      exact hno ⟨k, { s' with lock := true }, by rw [a.setSlot_self, hk]; rfl, hinum⟩
    · exact hno ⟨k, s', (a.setSlot_other _ hki).trans hk, hinum⟩

/-- No inode is locked. -/
def Unlocked (a : Afs) : Prop := ∀ i s, a.slot i = some s → s.lock = false

theorem Unlocked.addRef (h : a.Unlocked) (j y : ℕ) : (a.addRef j y).Unlocked := by
  intro i s hs
  by_cases hi : i = j
  · subst hi
    rw [addRef_slot] at hs
    cases hi : a.slot i with
    | none =>
      rw [hi] at hs
      cases hs
      rfl
    | some s' =>
      rw [hi] at hs
      cases hs
      exact h i s' hi
  · exact h i s ((a.addRef_slot_other y hi).symm.trans hs)

/-- Two references to inodes, one of them locked. -/
theorem lock_addRef_addRef (hx : a.SlotFor i x) (hy : (a.addRef i x).SlotFor j y) :
    ((a.addRef i x).lock i).addRef j y = ((a.addRef j y).addRef i x).lock i := by
  rw [lock_addRef (a.addRef_slot i x)]
  by_cases h : i = j
  · subst h
    rw [hx.eq hy]
  · rw [a.addRef_comm h]

end Afs

end References

/-! ### `namex` -/

/-- The inodes in `S` can be walked through: their directories are sound and name inodes in `S`,
no inode is locked or waits for being written back, and there is room in the inode cache. -/
structure Afs.Browse (a : Afs) (G : Geom) (ok : Stop → Prop) (S : ℕ → Prop) : Prop where
  unlocked : a.Unlocked
  fresh : a.stale = ∅
  range : ∀ {x}, S x → x < G.ninodes
  type : ∀ {x}, S x → (a.node x).type = 0 → ok (.panic "inode_lock: no type")
  whole : ∀ {x}, S x → (a.node x).type = tDir → WholeEntries (a.node x).data
  names : ∀ {x i}, S x → (a.node x).type = tDir → i < entries (a.node x).data →
    (entryAt (a.node x).data i).inum ≠ 0 → S (entryAt (a.node x).data i).inum
  room : ok (.panic "inode_get: no inodes") ∨
    ∃ i j, i ≠ j ∧ i < ninode ∧ j < ninode ∧ a.slot i = none ∧ a.slot j = none

/-- What `namex` returns: nothing, or an inode with a reference. -/
def Afs.Resolved (a : Afs) (found r : Option (ℕ × Bytes)) (a' : Afs) : Prop :=
  (found = none ∧ r = none ∧ a' = a) ∨
  ∃ x name ip, found = some (x, name) ∧ r = some (ip, name) ∧ a' = a.addRef ip x ∧ a.SlotFor ip x

section Namex

variable {G : Geom} {ok : Stop → Prop} {S : ℕ → Prop} {a : Afs} {ip x : ℕ} {parent : Bool}

theorem Afs.Browse.dirMap {c : Bytes} {y : ℕ} (h : a.Browse G ok S) (hx : S x)
    (hdir : (a.node x).type = tDir) (hy : dirMap (a.node x).data c = some y) : S y := by
  obtain ⟨i, hi, rfl⟩ := Option.map_eq_some_iff.mp hy
  obtain ⟨⟨hlt, h0, -⟩, -⟩ := dirFind_eq_some_iff.mp hi
  exact h.names hx hdir hlt h0

theorem Afs.lock_slot {s : Slot} (hs : a.slot ip = some s) :
    (a.lock ip).slot ip = some { s with lock := true } := by
  rw [lock_of_some hs]
  exact a.setSlot_self ..

theorem acts_inodeUnlockput (hopen : a.Unlocked) (horph : ∀ {x}, (a.node x).Orphan → a.Has x)
    (hslot : a.SlotFor ip x) :
    Acts G ok ((a.addRef ip x).lock ip) (inodeUnlockput ip) fun _ a' => a' = a := by
  refine (acts_inodeUnlock (a.addRef_slot ip x) (hopen.addRef ip x _ _ (a.addRef_slot ip x))).bind ?_
  rintro - a' rfl
  exact acts_inodePut_back horph hslot

/-- The directory is given back when an inode has been found in it. -/
theorem acts_leaveDir {sub z : ℕ} {s : Slot} (hopen : a.Unlocked)
    (horph : ∀ {x}, (a.node x).Orphan → a.Has x) (hslot : a.SlotFor ip x)
    (hs : (a.addRef ip x).slot ip = some s) (hsub : ((a.addRef ip x).lock ip).SlotFor sub z) :
    Acts G ok (((a.addRef ip x).lock ip).addRef sub z) (inodeUnlockput ip) fun _ a' =>
      a' = a.addRef sub z ∧ a.SlotFor sub z := by
  have hsub' := hsub.of_lock hs
  obtain ⟨hsub1, hslot1⟩ := hslot.swap hsub'
  rw [Afs.lock_addRef_addRef hslot hsub']
  refine (acts_inodeUnlockput (a := a.addRef sub z) (hopen.addRef sub z)
    (fun ho => (horph ho).addRef sub z) hslot1).mono ?_
  rintro - a' rfl
  exact ⟨rfl, hsub1⟩

/-- A directory is looked up, and its reference is given back. -/
theorem acts_lookupNext {β : Type} {c : Bytes} {s : Slot} {f : Option (ℕ × ℕ) → FsM β} {R : β → Afs → Prop}
    (h : a.Browse G ok S)
    (horph : ∀ {x}, (a.node x).Orphan → a.Has x) (hx : S x) (hslot : a.SlotFor ip x)
    (hs : (a.addRef ip x).slot ip = some s) (hinum : s.inum = x)
    (hdir : (a.node x).type = tDir)
    (hnone : dirMap (a.node x).data c = none → Acts G ok a (f none) R)
    (hsome : ∀ sub off y, dirMap (a.node x).data c = some y → a.SlotFor sub y →
      Acts G ok (a.addRef sub y) (f (some (sub, off))) R) :
    Acts G ok ((a.addRef ip x).lock ip) (do
      let subdir ← dirLookup ip c
      inodeUnlockput ip
      f subdir) R := by
  have hdirAt : ((a.addRef ip x).lock ip).DirAt ip { s with lock := true } :=
    ⟨Afs.lock_slot hs, rfl, by rw [← hinum] at hdir; exact hdir,
      by rw [← hinum] at hdir hx; exact h.whole hx hdir⟩
  subst hinum
  refine (acts_dirLookup c hdirAt fun i hi hget => ?_).bind ?_
  · refine h.room.resolve_right ?_
    rintro ⟨j, k, hne, hj, hk, hjs, hks⟩
    -- one of the two free slots is not that of the directory
    have hfree : ∀ l < ninode, a.slot l = none → l ≠ ip → False := fun l hl hls hlip =>
      hget (.inr ⟨l, hl, (Afs.setSlot_other _ _ hlip).trans ((a.addRef_slot_other _ hlip).trans hls)⟩)
    by_cases hjip : j = ip
    · exact hfree k hk hks fun hkip => hne (hjip.trans hkip.symm)
    · exact hfree j hj hjs hjip
  · rintro r a' (⟨hf, rfl, rfl⟩ | ⟨i, sub, hf, rfl, rfl, hsub⟩)
    · refine (acts_inodeUnlockput h.unlocked horph hslot).bind ?_
      rintro - a' rfl
      refine hnone ?_
      unfold Fs.dirMap
      rw [show dirFind (a'.node s.inum).data c = none from hf]
      rfl
    · set y := (entryAt (((a.addRef ip s.inum).lock ip).node s.inum).data i).inum
      have hmap : Fs.dirMap (a.node s.inum).data c = some y := by
        unfold Fs.dirMap
        rw [show dirFind (a.node s.inum).data c = some i from hf]
        rfl
      refine (acts_leaveDir h.unlocked horph hslot hs hsub).bind ?_
      rintro - a' ⟨rfl, hsub1⟩
      exact hsome sub _ y hmap hsub1

/-- **The loop of `namex`** -/
theorem acts_namexFrom (h : a.Browse G ok S) (horph : ∀ {x}, (a.node x).Orphan → a.Has x)
    (k : ℕ) (path name : Bytes) (ip x : ℕ) (hk : path.length < k) (hx : S x) (hslot : a.SlotFor ip x) :
    Acts G ok (a.addRef ip x) (namexFrom parent k ip path name)
      (a.Resolved (a.resolve parent (components path) x name)) := by
  induction k generalizing path name ip x with
  | zero => omega
  | succ k ih =>
    unfold namexFrom
    cases hskip : skipelem path with
    | none =>
      rw [skipelem_none.mp hskip]
      unfold Afs.resolve
      refine Acts.ite (fun hp => ?_) fun hp => ?_
      · rw [if_pos hp]
        refine (acts_inodePut_back horph hslot).bind ?_
        rintro - a' rfl
        exact acts_pure (.inl ⟨rfl, rfl, rfl⟩)
      · rw [if_neg hp]
        exact acts_pure (.inr ⟨x, name, ip, rfl, rfl, rfl, hslot⟩)
    | some p =>
      obtain ⟨name', rest⟩ := p
      obtain ⟨c, hcomp, rfl, hlen, hend⟩ := skipelem_some hskip
      obtain ⟨s, hs, hinum⟩ := hslot.slot
      dsimp only
      rw [hcomp]
      unfold Afs.resolve
      refine (acts_inodeLock hs (by rw [hinum]; exact h.range hx) ?_ (fun hl => ?_) fun h0 => ?_).bind ?_
      · exact fun hmem => Finset.notMem_empty _ (h.fresh ▸ hmem)
      · rw [h.unlocked.addRef ip x ip s hs] at hl
        cases hl
      · rw [hinum] at h0
        exact h.type hx h0
      rintro - a' ⟨-, -, rfl⟩
      refine (acts_getInode (Afs.lock_slot hs)).bind ?_
      rintro i a' ⟨rfl, -, -, hcopy⟩
      have htype : i.d.type = (a.node x).type := by
        rw [← hinum]
        exact (hcopy rfl).type
      rw [htype]
      refine Acts.ite (fun hdir => ?_) fun hdir => Acts.ite (fun hlast => ?_) fun hlast => ?_
      · rw [if_pos hdir]
        refine (acts_inodeUnlockput h.unlocked horph hslot).bind ?_
        rintro - a' rfl
        exact acts_pure (.inl ⟨rfl, rfl, rfl⟩)
      · rw [if_neg hdir, if_pos ⟨hlast.1, hend.mp hlast.2⟩]
        refine (acts_inodeUnlock hs (h.unlocked.addRef ip x ip s hs)).bind ?_
        rintro - a' rfl
        exact acts_pure (.inr ⟨x, _, ip, rfl, rfl, rfl, hslot⟩)
      · rw [if_neg hdir, if_neg fun hl => hlast ⟨hl.1, hend.mpr hl.2⟩]
        rw [not_not] at hdir
        refine acts_lookupNext h horph hx hslot hs hinum hdir (fun hnone => ?_) fun sub off y hy hsub => ?_
        · rw [hnone]
          exact acts_pure (.inl ⟨rfl, rfl, rfl⟩)
        · rw [hy]
          exact ih rest _ sub y (by omega) (h.dirMap hx hdir hy) hsub

/-- The inode that a path starts from. -/
def Afs.start (a : Afs) (pid : ℕ) (path : Bytes) : ℕ :=
  if path.head? = some slash then rootino else ((a.slot (a.cwd pid)).map Slot.inum).getD 0

variable {pid : ℕ} (h : a.Browse G ok S) (path : Bytes) (hroot : S (a.start pid path))
  (hcwd : path.head? ≠ some slash → a.slot (a.cwd pid) ≠ none)

include h hroot hcwd

/-- **`namex`** -/
theorem acts_namex :
    Acts G ok a (namex pid path parent)
      (a.Resolved (a.resolve parent (components path) (a.start pid path) [])) := by
  refine Acts.of_rep fun t g ht => ?_
  have hstart : Acts G ok a (namexStart pid path) fun ip a' =>
      a' = a.addRef ip (a.start pid path) ∧ a.SlotFor ip (a.start pid path) := by
    unfold namexStart Afs.start
    unfold Afs.start at hroot
    refine Acts.ite (fun hs => ?_) fun hs => ?_
    · rw [if_pos hs] at hroot ⊢
      refine acts_inodeGet fun hget => ?_
      refine h.room.resolve_right ?_
      rintro ⟨j, -, -, hj, -, hjs, -⟩
      exact hget (.inr ⟨j, hj, hjs⟩)
    · rw [if_neg hs]
      obtain ⟨s, hslot⟩ := Option.ne_none_iff_exists'.mp (hcwd hs)
      refine (acts_readMem (v := a.cwd pid) fun k hk => by rw [hk.cwd]).bind ?_
      rintro - a' ⟨rfl, rfl⟩
      refine (acts_inodeDup hslot).bind ?_
      rintro - a'' rfl
      rw [hslot]
      exact acts_pure ⟨rfl, .inr ⟨s, hslot, rfl⟩⟩
  refine hstart.bind ?_
  rintro ip a' ⟨rfl, hslot⟩
  exact acts_namexFrom h ht.orphans _ path [] ip _ (Nat.lt_succ_self _) hroot hslot

theorem acts_namei :
    Acts G ok a (namei pid path) fun r a' =>
      (a.walk (components path) (a.start pid path) = none ∧ r = none ∧ a' = a) ∨
      ∃ x ip, a.walk (components path) (a.start pid path) = some x ∧ r = some ip ∧
        a' = a.addRef ip x ∧ a.SlotFor ip x := by
  refine (acts_namex h path hroot hcwd).bind ?_
  rw [← Afs.resolve_false _ _ []]
  rintro r a' (⟨hf, rfl, rfl⟩ | ⟨x, name, ip, hf, rfl, rfl, hslot⟩)
  · rw [hf]
    exact acts_pure (.inl ⟨rfl, rfl, rfl⟩)
  · rw [hf]
    exact acts_pure (.inr ⟨x, ip, rfl, rfl, rfl, hslot⟩)

theorem acts_nameiparent :
    Acts G ok a (nameiparent pid path)
      (a.Resolved (a.walkParent (components path) (a.start pid path))) := by
  rw [← Afs.resolve_true _ _ []]
  exact acts_namex h path hroot hcwd

end Namex

end Fs

end Mcertikos
