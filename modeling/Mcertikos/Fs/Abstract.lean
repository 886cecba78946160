/-
The file system as its calls see it.

An inode has attributes and a sequence of bytes, and the inode cache has references to
inodes and locks on them.  Where the blocks of a file are, what is in the buffer cache, and
which copies of inodes are valid is not part of this view.

* `Node`, `Afs` — a file; the state of the file system;
* `Rep` — a state of the machine is one of the abstract state;
* `Acts a m Q` — from the abstract state `a`, every run of `m` that returns does so with `Q`;
* `Rep.replace` — one inode and its slot change;
* `acts_inodeGet`, `acts_inodeLock`, `acts_inodePut` and others — the inode cache.

Design notes: a reference that a function drops is written as one that was added, `a.addRef ip x`
before and `a` after, and the same with locks.  The rules name every failure that a function
can run into, so that they serve for runs that return and for runs that must.
-/
import Mcertikos.Fs.Files

namespace Mcertikos

namespace Fs

open Function Prog Budget

/-! ### Abstract states -/

/-- An inode and the bytes of its file. -/
@[ext] structure Node where
  type : ℕ
  major : ℕ
  minor : ℕ
  nlink : ℕ
  data : Bytes

/-- A file without a name. -/
def Node.Orphan (nd : Node) : Prop := nd.type ≠ 0 ∧ nd.nlink = 0

/-- A slot of the inode cache that is in use. -/
@[ext] structure Slot where
  inum : ℕ
  ref : ℕ
  lock : Bool
  pos : 0 < ref

/-- The first reference to inode `x`. -/
def Slot.first (x : ℕ) : Slot := ⟨x, 1, false, Nat.one_pos⟩

/-- One more reference. -/
def Slot.more (s : Slot) : Slot := { s with ref := s.ref + 1, pos := Nat.succ_pos _ }

/-- The inodes with all changes made so far, those among them that have not been written
back, the inode cache, open files and working directories, and the transaction. -/
@[ext] structure Afs where
  node : ℕ → Node
  stale : Finset ℕ
  slot : ℕ → Option Slot
  file : ℕ → File
  openfiles : ℕ → ℕ → Option ℕ
  cwd : ℕ → ℕ
  first : Bool
  bufLock : Bool
  txn : Txn

namespace Afs

def setSlot (a : Afs) (i : ℕ) (s : Option Slot) : Afs := { a with slot := update a.slot i s }

/-- One more reference to slot `i`, which has the inode `x` or gets it. -/
def addRef (a : Afs) (i x : ℕ) : Afs :=
  a.setSlot i (some ((a.slot i).elim (.first x) Slot.more))

def lock (a : Afs) (i : ℕ) : Afs := a.setSlot i ((a.slot i).map fun s => { s with lock := true })

def setNode (a : Afs) (x : ℕ) (nd : Node) : Afs := { a with node := update a.node x nd }

def setStale (a : Afs) (st : Finset ℕ) : Afs := { a with stale := st }

def setTxn (a : Afs) (e : Txn) : Afs := { a with txn := e }

def setFile (a : Afs) (f : ℕ) (x : File) : Afs := { a with file := update a.file f x }

def setOpenfiles (a : Afs) (pid fd : ℕ) (f : Option ℕ) : Afs :=
  { a with openfiles := update a.openfiles pid (update (a.openfiles pid) fd f) }

/-- Some slot has the inode `x`. -/
def Has (a : Afs) (x : ℕ) : Prop := ∃ i s, a.slot i = some s ∧ s.inum = x

/-- Slot `i`, if it is in use, has the inode `x`, and no other slot does. -/
def Sole (a : Afs) (i x : ℕ) : Prop := ∀ j s, a.slot j = some s → (s.inum = x ↔ j = i)

/-- There is a slot for a reference to inode `x`. -/
def CanGet (a : Afs) (x : ℕ) : Prop := a.Has x ∨ ∃ i < ninode, a.slot i = none

/-- Slot `i` is the one for a reference to inode `x`. -/
def SlotFor (a : Afs) (i x : ℕ) : Prop :=
  (a.slot i = none ∧ ¬ a.Has x) ∨ ∃ s, a.slot i = some s ∧ s.inum = x

end Afs

/-! ### The machine behind it -/

/-- An inode in use, and its copy in a slot. -/
structure LiveSlot (i : Inode) (V : ℕ → Dinode) (s : Slot) : Prop where
  ref : i.ref = s.ref
  busy : i.busy = s.lock
  dev : i.dev = rootdev
  inum : i.inum = s.inum
  locked : s.lock = true → i.valid = true
  valid : i.valid = true → i.d = V s.inum ∧ (V s.inum).type ≠ 0
  invalid : i.valid = false → (V s.inum).type = 0 ∨ (V s.inum).nlink ≠ 0

/-- The attributes of a file in a copy of its inode. -/
structure Node.Copy (nd : Node) (d : Dinode) : Prop where
  type : d.type = nd.type
  major : d.major = nd.major
  minor : d.minor = nd.minor
  nlink : d.nlink = nd.nlink
  size : d.size = nd.data.length

/-- The inode `x` with its blocks is the file `nd`, which has no holes. -/
structure Ghost.Is (g : Ghost) (x : ℕ) (nd : Node) : Prop where
  type : (g.V x).type = nd.type
  major : (g.V x).major = nd.major
  minor : (g.V x).minor = nd.minor
  nlink : (g.V x).nlink = nd.nlink
  data : nd.data = g.bytes x 0 (g.V x).size
  full : ∀ {j}, g.own (.data x j) ≠ none ↔ bsize * j < (g.V x).size
  ind : g.own (.ind x) ≠ none → ndirect * bsize < (g.V x).size
  empty : nd.type = 0 → nd.data = []

/-- A state of the machine is one of the abstract state. -/
structure Rep (G : Geom) (ok : Stop → Prop) (t : View) (a : Afs) (g : Ghost) : Prop where
  work : Work G ok t g a.txn
  node : ∀ x, g.Is x (a.node x)
  stale : ∀ {y}, g.stale y → y ∈ a.stale
  dead : ∀ {i}, a.slot i = none → (t.k.inode i).ref = 0
  live : ∀ {i s}, a.slot i = some s → LiveSlot (t.k.inode i) g.V s
  unique : ∀ {i j s s'}, a.slot i = some s → a.slot j = some s' → s.inum = s'.inum → i = j
  range : ∀ {i s}, a.slot i = some s → i < ninode
  inside : ∀ {x}, (a.node x).type ≠ 0 → x < G.ninodes
  orphans : ∀ {x}, (a.node x).Orphan → a.Has x
  file : t.k.file = a.file
  openfiles : t.k.openfiles = a.openfiles
  cwd : t.k.cwd = a.cwd
  first : t.k.first = a.first
  bufLock : t.k.bufLock = a.bufLock

/-- From the abstract state `a`, every run of `m` that returns does so with `Q`, and a run that
fails does so in a way that is left out of consideration. -/
def Acts (G : Geom) (ok : Stop → Prop) {α : Type} (a : Afs) (m : FsM α) (Q : α → Afs → Prop) : Prop :=
  ∀ t g, Rep G ok t a g → Wp (rules G.area ok) m (fun r t' => ∃ a' g', Rep G ok t' a' g' ∧ Q r a') t

section Acts

variable {G : Geom} {ok : Stop → Prop} {a a' : Afs} {α β : Type} {m m' : FsM α} {f : α → FsM β}
  {Q Q' : α → Afs → Prop} {R : β → Afs → Prop}

theorem Acts.mono (h : Acts G ok a m Q) (hQ : ∀ r a', Q r a' → Q' r a') : Acts G ok a m Q' :=
  fun t g ht => (h t g ht).mono fun _ _ ⟨a', g', h', hq⟩ => ⟨a', g', h', hQ _ _ hq⟩

theorem Acts.bind (h : Acts G ok a m Q) (hf : ∀ r a', Q r a' → Acts G ok a' (f r) R) :
    Acts G ok a (m >>= f) R :=
  fun t g ht => (h t g ht).bind fun r t' ⟨a', g', h', hq⟩ => hf r a' hq t' g' h'

theorem acts_pure {r : α} (h : Q r a) : Acts G ok a (pure r) Q := fun _ g ht => ⟨a, g, ht, h⟩

theorem Acts.ite {c : Prop} [Decidable c] (h : c → Acts G ok a m Q) (h' : ¬ c → Acts G ok a m' Q) :
    Acts G ok a (if c then m else m') Q := by
  split_ifs with hc
  · exact h hc
  · exact h' hc

theorem Acts.when {c : Prop} [Decidable c] {m : FsM PUnit} {Q : PUnit → Afs → Prop}
    (h : c → Acts G ok a m Q) (h' : ¬ c → Q ⟨⟩ a) : Acts G ok a (Prog.when c m) Q :=
  Acts.ite h fun hc => acts_pure (h' hc)

/-- What the representation knows of the abstract state. -/
theorem Acts.of_rep (h : ∀ t g, Rep G ok t a g → Acts G ok a m Q) : Acts G ok a m Q :=
  fun t g ht => h t g ht t g ht

end Acts

/-! ### Slots -/

section Slots

variable {G : Geom} {ok : Stop → Prop} {t : View} {a : Afs} {g : Ghost} {i ip x : ℕ} {s : Slot}
  {α β : Type} {Q : α → Afs → Prop} {R : β → Afs → Prop}

namespace Afs

theorem setSlot_self (a : Afs) (i : ℕ) (s : Option Slot) : (a.setSlot i s).slot i = s :=
  update_self ..

theorem setSlot_other (a : Afs) {i j : ℕ} (s : Option Slot) (h : j ≠ i) :
    (a.setSlot i s).slot j = a.slot j := update_of_ne h ..

theorem setSlot_setSlot (a : Afs) (i : ℕ) (s s' : Option Slot) :
    (a.setSlot i s).setSlot i s' = a.setSlot i s' := by
  unfold setSlot
  dsimp only
  rw [update_idem]

theorem setSlot_eq (a : Afs) {i : ℕ} {s : Option Slot} (h : a.slot i = s) : a.setSlot i s = a := by
  unfold setSlot
  rw [← h, update_eq_self]

end Afs

/-- What has to be known of another ghost state for a file that has not changed. -/
theorem Ghost.Is.frame {g' : Ghost} {nd : Node} (h : g.Is x nd) (hV : g'.V x = g.V x)
    (hbyte : ∀ i, g'.byte x i = g.byte x i)
    (hdata : ∀ j, g'.own (.data x j) ≠ none ↔ g.own (.data x j) ≠ none)
    (hind : g'.own (.ind x) ≠ none → g.own (.ind x) ≠ none) : g'.Is x nd := by
  refine ⟨hV ▸ h.type, hV ▸ h.major, hV ▸ h.minor, hV ▸ h.nlink, ?_, fun {j} => ?_, fun hi => ?_,
    h.empty⟩
  · rw [h.data, hV]
    exact List.map_congr_left fun i _ => (hbyte _).symm
  · rw [hdata, hV]
    exact h.full
  · rw [hV]
    exact h.ind (hind hi)

variable {y : Inode} {A : LogArea}

/-- **One inode and its slot change.**  The inode `x` becomes `nd`, and the slot `ip`, which is
the only one that may have it, becomes `so`. -/
theorem Rep.replace (h : Rep G ok t a g) {t' : View} {g' : Ghost} (so : Option Slot)
    (nd : Node) (st : Finset ℕ) {e : Txn} (hwork : Work G ok t' g' e)
    (hk : t'.k = t.k.setInode ip y)
    (hmine : a.Sole ip x)
    (hother : ∀ z, z ≠ x → g'.V z = g.V z ∧ g'.Is z (a.node z)) (hself : g'.Is x nd)
    (hstale : ∀ {z}, g'.stale z → z ∈ st) (hdead : so = none → y.ref = 0)
    (hlive : ∀ {s}, so = some s → LiveSlot y g'.V s ∧ s.inum = x ∧ ip < ninode)
    (hinside : nd.type ≠ 0 → x < G.ninodes) (horphan : nd.Orphan → so ≠ none) :
    Rep G ok t' ((((a.setSlot ip so).setNode x nd).setStale st).setTxn e) g' := by
  have hinode : ∀ {j}, j ≠ ip → t'.k.inode j = t.k.inode j := fun hj => by
    rw [hk]
    exact Kmem.setInode_other _ _ hj
  have hinode_self : t'.k.inode ip = y := by
    rw [hk]
    exact Kmem.setInode_self ..
  have hslot : ∀ {j}, j ≠ ip → (a.setSlot ip so).slot j = a.slot j := fun hj =>
    a.setSlot_other _ hj
  refine ⟨hwork, fun z => ?_, hstale, fun {j} hj => ?_, fun {j s} hj => ?_,
    fun {i j s s'} hi hj he => ?_, fun {j s} hj => ?_, fun {z} hz => ?_, fun {z} hz => ?_,
    by rw [hk]; exact h.file,
    by rw [hk]; exact h.openfiles, by rw [hk]; exact h.cwd, by rw [hk]; exact h.first,
    by rw [hk]; exact h.bufLock⟩
  · show g'.Is z (update a.node x nd z)
    by_cases hz : z = x
    · rw [hz, update_self]
      exact hself
    · rw [update_of_ne hz]
      exact (hother z hz).2
  · change (a.setSlot ip so).slot j = none at hj
    by_cases hji : j = ip
    · rw [hji, a.setSlot_self] at hj
      rw [hji, hinode_self]
      exact hdead hj
    · rw [hslot hji] at hj
      rw [hinode hji]
      exact h.dead hj
  · change (a.setSlot ip so).slot j = some s at hj
    by_cases hji : j = ip
    · rw [hji, a.setSlot_self] at hj
      rw [hji, hinode_self]
      exact (hlive hj).1
    · rw [hslot hji] at hj
      have hne : s.inum ≠ x := fun he => hji ((hmine _ _ hj).mp he)
      have hl := h.live hj
      rw [hinode hji]
      exact ⟨hl.ref, hl.busy, hl.dev, hl.inum, hl.locked,
        by rw [(hother _ hne).1]; exact hl.valid, by rw [(hother _ hne).1]; exact hl.invalid⟩
  · change (a.setSlot ip so).slot i = some s at hi
    change (a.setSlot ip so).slot j = some s' at hj
    by_cases hii : i = ip <;> by_cases hjj : j = ip
    · rw [hii, hjj]
    · rw [hii, a.setSlot_self] at hi
      rw [hslot hjj] at hj
      exact absurd ((hmine _ _ hj).mp (he.symm.trans (hlive hi).2.1)) hjj
    · rw [hslot hii] at hi
      rw [hjj, a.setSlot_self] at hj
      exact absurd ((hmine _ _ hi).mp (he.trans (hlive hj).2.1)) hii
    · rw [hslot hii] at hi
      rw [hslot hjj] at hj
      exact h.unique hi hj he
  · change (a.setSlot ip so).slot j = some s at hj
    by_cases hji : j = ip
    · rw [hji, a.setSlot_self] at hj
      exact hji ▸ (hlive hj).2.2
    · rw [hslot hji] at hj
      exact h.range hj
  · change (update a.node x nd z).type ≠ 0 at hz
    by_cases hzx : z = x
    · rw [hzx, update_self] at hz
      exact hzx ▸ hinside hz
    · rw [update_of_ne hzx] at hz
      exact h.inside hz
  · change (update a.node x nd z).Orphan at hz
    show ∃ i s, (a.setSlot ip so).slot i = some s ∧ s.inum = z
    by_cases hzx : z = x
    · rw [hzx, update_self] at hz
      obtain ⟨s, hs⟩ := Option.ne_none_iff_exists'.mp (horphan hz)
      exact ⟨ip, s, (a.setSlot_self ..).trans hs, (hlive hs).2.1.trans hzx.symm⟩
    · rw [update_of_ne hzx] at hz
      obtain ⟨j, s, hj, rfl⟩ := h.orphans hz
      have hji : j ≠ ip := fun he => hzx ((hmine _ _ hj).mpr he)
      exact ⟨j, s, (hslot hji).trans hj, rfl⟩

/-- Only the slot changes. -/
theorem Rep.setInode (h : Rep G ok t a g) (so : Option Slot)
    (hmine : a.Sole ip x) (hdead : so = none → y.ref = 0)
    (hlive : ∀ {s}, so = some s → LiveSlot y g.V s ∧ s.inum = x ∧ ip < ninode)
    (horphan : (a.node x).Orphan → so ≠ none) :
    Rep G ok (t.setK (t.k.setInode ip y)) (a.setSlot ip so) g := by
  have hrep := h.replace so (a.node x) a.stale (h.work.setK (t.k.setInode ip y)) rfl hmine
    (fun z _ => ⟨rfl, h.node z⟩) (h.node x) h.stale hdead hlive h.inside horphan
  have heq : (((a.setSlot ip so).setNode x (a.node x)).setStale a.stale).setTxn a.txn =
      a.setSlot ip so := by
    have hnode : update a.node x (a.node x) = a.node := update_eq_self ..
    unfold Afs.setNode Afs.setStale Afs.setTxn Afs.setSlot
    dsimp only
    rw [hnode]
  rwa [heq] at hrep

/-- A slot in use is the only one with its inode. -/
theorem Rep.sole (h : Rep G ok t a g) (hs : a.slot ip = some s) : a.Sole ip s.inum := by
  intro j s' hj
  refine ⟨fun he => h.unique hj hs he, fun he => ?_⟩
  rw [he, hs] at hj
  rw [Option.some.inj hj]

/-- The slot keeps its inode. -/
theorem Rep.setSlot (h : Rep G ok t a g) (hs : a.slot ip = some s) (s' : Slot)
    (hlive : LiveSlot y g.V s') (hinum : s'.inum = s.inum) :
    Rep G ok (t.setK (t.k.setInode ip y)) (a.setSlot ip (some s')) g :=
  h.setInode _ (h.sole hs) nofun (fun he => Option.some.inj he ▸
    ⟨hlive, hinum, h.range hs⟩) fun _ => nofun

theorem Afs.addRef_of_some (hs : a.slot ip = some s) (x : ℕ) :
    a.addRef ip x = a.setSlot ip (some s.more) := by
  unfold addRef
  rw [hs]
  rfl

theorem Afs.addRef_of_none (hs : a.slot ip = none) (x : ℕ) :
    a.addRef ip x = a.setSlot ip (some (.first x)) := by
  unfold addRef
  rw [hs]
  rfl

theorem wp_critical {f : Kmem → Except Stop (β × Kmem)} {Q : β → View → Prop}
    (herr : ∀ e, f t.k = .error e → ok e) (hQ : ∀ b k', f t.k = .ok (b, k') → Q b (t.setK k')) :
    Wp (rules A ok) (critical f) Q t := by
  show pre A ok (.mem f) _ t
  dsimp only [pre]
  cases hf : f t.k with
  | ok p => exact hQ p.1 p.2 hf
  | error e => exact herr e hf

theorem Kmem.inodeGet_error {k : Kmem} {dev inum : ℕ} {e : Stop} (h : k.inodeGet dev inum = .error e) :
    e = .panic "inode_get: no inodes" ∧
      (∀ i < ninode, ¬ (0 < (k.inode i).ref ∧ (k.inode i).dev = dev ∧ (k.inode i).inum = inum)) ∧
      ∀ i < ninode, (k.inode i).ref ≠ 0 := by
  unfold Kmem.inodeGet at h
  split at h
  · cases h
  · rename_i hf
    split at h
    · cases h
    · rename_i hg
      cases h
      refine ⟨rfl, fun i hi hkey => ?_, fun i hi hkey => ?_⟩
      · exact List.find?_eq_none.mp hf i (List.mem_range.mpr hi) (decide_eq_true hkey)
      · exact List.find?_eq_none.mp hg i (List.mem_range.mpr hi) (decide_eq_true hkey)

/-- **`inode_get`** -/
theorem acts_inodeGet (hfull : ¬ a.CanGet x → ok (.panic "inode_get: no inodes")) :
    Acts G ok a (inodeGet rootdev x) fun ip a' => a' = a.addRef ip x ∧ a.SlotFor ip x := by
  intro t g ht
  refine wp_critical (fun e he => ?_) fun ip k' hget => ?_
  · obtain ⟨rfl, hno, hnofree⟩ := Kmem.inodeGet_error he
    refine hfull ?_
    rintro (⟨i, s, hs, rfl⟩ | ⟨i, hi, hs⟩)
    · have hl := ht.live hs
      exact hno i (ht.range hs) ⟨by rw [hl.ref]; exact s.pos, hl.dev, hl.inum⟩
    · exact hnofree i hi (ht.dead hs)
  obtain ⟨hip, ⟨href, hdev, hinum, rfl⟩ | ⟨hno, href, rfl⟩⟩ := Kmem.inodeGet_cases hget
  · -- the inode has a slot
    cases hs : a.slot ip with
    | none => exact absurd (ht.dead hs) (by omega)
    | some s =>
      have hl := ht.live hs
      refine ⟨_, g, ht.setSlot hs s.more ?_ rfl, ?_, .inr ⟨s, hs, hl.inum.symm.trans hinum⟩⟩
      · exact ⟨congrArg (· + 1) hl.ref, hl.busy, hl.dev, hl.inum, hl.locked, hl.valid, hl.invalid⟩
      · rw [Afs.addRef_of_some hs]
  · have hs : a.slot ip = none := by
      cases hs : a.slot ip with
      | none => rfl
      | some s =>
        have hl := ht.live hs
        have := s.pos
        rw [hl.ref] at href
        omega
    have hnone : ¬ a.Has x := by
      rintro ⟨j, s, hj, rfl⟩
      have hl := ht.live hj
      exact hno j (ht.range hj) ⟨by rw [hl.ref]; exact s.pos, hl.dev, hl.inum⟩
    refine ⟨_, g, ht.setInode (x := x) (some (.first x)) (fun j s hj => ?_) nofun
      (fun {s} he => ?_) fun _ => nofun, (Afs.addRef_of_none hs x).symm, .inl ⟨hs, hnone⟩⟩
    · refine ⟨fun he => absurd ⟨j, s, hj, he⟩ hnone, fun he => ?_⟩
      rw [he, hs] at hj
      cases hj
    · obtain rfl := Option.some.inj he
      refine ⟨⟨rfl, rfl, rfl, rfl, nofun, nofun, fun _ => ?_⟩, rfl, hip⟩
      by_contra hor
      change ¬ ((g.V x).type = 0 ∨ (g.V x).nlink ≠ 0) at hor
      rw [not_or, not_not, (ht.node x).type, (ht.node x).nlink] at hor
      exact hnone (ht.orphans hor)

theorem acts_inodeDup (hs : a.slot ip = some s) :
    Acts G ok a (inodeDup ip) fun _ a' => a' = a.addRef ip s.inum := by
  intro t g ht
  have hl := ht.live hs
  refine ⟨_, g, ht.setSlot hs s.more ?_ rfl, (Afs.addRef_of_some hs _).symm⟩
  exact ⟨congrArg (· + 1) hl.ref, hl.busy, hl.dev, hl.inum, hl.locked, hl.valid, hl.invalid⟩

theorem Afs.lock_of_some (hs : a.slot ip = some s) :
    a.lock ip = a.setSlot ip (some { s with lock := true }) := by
  unfold lock
  rw [hs]
  rfl

/-- The part of `inode_lock` that reads the inode from disk. -/
theorem wp_loadInode {Q : PUnit → View → Prop} {d : Dinode}
    (hy : t.k.inode ip = y) (hdev : y.dev = rootdev) (hread : Readable A ok t (iblock y.inum))
    (hd : (t.blk (iblock y.inum)).dinode (y.inum % ipb) = d)
    (htype : d.type = 0 → ok (.panic "inode_lock: no type"))
    (hQ : d.type ≠ 0 → Q ⟨⟩ (t.setK (t.k.setInode ip { y with d := d, valid := true }))) :
    Wp (rules A ok) (do
      let bp ← bufcacheRead y.dev (iblock y.inum)
      let data ← bufData bp
      modifyInode ip fun _ => data.dinode (y.inum % ipb)
      bufcacheRelease bp
      modifyMem fun k => k.setInode ip { k.inode ip with valid := true }
      let i ← getInode ip
      Prog.when (i.d.type = 0) (kernPanic "inode_lock: no type")) Q t := by
  rw [hdev]
  refine wp_reading hread fun bp _ hfree hm => wp_data (wp_modifyInode ?_)
  rw [hd]
  refine pre_release (t := t.setK (t.k.setDinode ip d)) hfree hm ?_
  show Wp _ (modifyMem _ >>= _) Q (t.setK (t.k.setDinode ip d))
  refine wp_modifyMem (wp_getInode ?_)
  have hk : (t.k.setDinode ip d).setInode ip { (t.k.setDinode ip d).inode ip with valid := true } =
      t.k.setInode ip { y with d := d, valid := true } := by
    unfold Kmem.setDinode Kmem.setInode
    dsimp only
    rw [update_self, update_idem, hy]
  show Wp _ (if (((t.k.setDinode ip d).setInode ip { (t.k.setDinode ip d).inode ip with
    valid := true }).inode ip).d.type = 0 then _ else _) Q (t.setK ((t.k.setDinode ip d).setInode ip
      { (t.k.setDinode ip d).inode ip with valid := true }))
  rw [hk, Kmem.setInode_self]
  split_ifs with h
  · exact htype h
  · exact hQ h

theorem View.setK_setInode (t : View) (ip : ℕ) (y y' : Inode) :
    (t.setK (t.k.setInode ip y)).setK ((t.setK (t.k.setInode ip y)).k.setInode ip y') =
      t.setK (t.k.setInode ip y') := by
  unfold View.setK Kmem.setInode
  dsimp only
  rw [update_idem]

/-- `inode_lock` of a slot that is in use. -/
theorem wp_inodeLock {Q : PUnit → View → Prop} {d : Dinode}
    (hy : t.k.inode ip = y) (href : 0 < y.ref) (hdev : y.dev = rootdev)
    (hasleep : y.busy = true → ok .asleep) (hread : Readable A ok t (iblock y.inum))
    (hd : y.valid = false → (t.blk (iblock y.inum)).dinode (y.inum % ipb) = d)
    (htype : y.valid = false → d.type = 0 → ok (.panic "inode_lock: no type"))
    (hQ : y.busy = false → y.valid = true → Q ⟨⟩ (t.setK (t.k.setInode ip { y with busy := true })))
    (hQ' : y.busy = false → y.valid = false → d.type ≠ 0 →
      Q ⟨⟩ (t.setK (t.k.setInode ip { y with busy := true, valid := true, d := d }))) :
    Wp (rules A ok) (inodeLock ip) Q t := by
  refine Prog.wp_bind.mpr (wp_critical (fun e he => ?_) fun _ k' hk' => ?_)
  · rw [if_neg (by rw [hy]; omega)] at he
    cases he
  rw [if_neg (by rw [hy]; omega)] at hk'
  cases hk'
  have hsame : t.setK t.k = t := rfl
  rw [hsame]
  refine Prog.wp_bind.mpr (wp_critical (fun e he => ?_) fun _ k' hk' => ?_)
  · rw [hy] at he
    split_ifs at he with hbusy
    cases he
    exact hasleep hbusy
  rw [hy] at hk'
  split_ifs at hk' with hbusy
  cases hk'
  have hfree : y.busy = false := Bool.not_eq_true _ ▸ hbusy
  have hself : (t.setK (t.k.setInode ip { y with busy := true })).k.inode ip = { y with busy := true } :=
    Kmem.setInode_self ..
  refine wp_getInode ?_
  rw [hself]
  unfold Prog.when
  split_ifs with hvalid
  · -- the copy is read from disk
    refine wp_loadInode hself hdev ⟨hread.lt, hread.outside, hread.fails⟩ (hd hvalid) (htype hvalid)
      fun hne => ?_
    rw [View.setK_setInode]
    exact hQ' hfree hvalid hne
  · exact hQ hfree (Bool.not_eq_false _ ▸ hvalid)

/-- **`inode_lock`** -/
theorem acts_inodeLock (hs : a.slot ip = some s) (hx : s.inum < G.ninodes) (hst : s.inum ∉ a.stale)
    (hasleep : s.lock = true → ok .asleep)
    (htype : (a.node s.inum).type = 0 → ok (.panic "inode_lock: no type")) :
    Acts G ok a (inodeLock ip) fun _ a' => s.lock = false ∧ (a.node s.inum).type ≠ 0 ∧
      a' = a.lock ip := by
  intro t g ht
  have hl := ht.live hs
  have hlt : iblock s.inum < G.dataEnd := (Geom.iblock_lt hx).trans Geom.bitmap_lt
  refine wp_inodeLock (d := g.V s.inum) rfl (by rw [hl.ref]; exact s.pos) hl.dev
    (fun h => hasleep (hl.busy.symm.trans h)) (ht.work.readable (by rw [hl.inum]; exact hlt))
    (fun _ => ?_) (fun _ h0 => ?_) (fun hbusy hvalid => ?_) fun hbusy _ hne => ?_
  · rw [hl.inum]
    exact ht.work.maps.inode _ hx fun h => hst (ht.stale h)
  · rw [(ht.node _).type] at h0
    exact htype h0
  · refine ⟨_, g, ht.setSlot hs { s with lock := true } ?_ rfl, hl.busy.symm.trans hbusy, ?_,
      (Afs.lock_of_some hs).symm⟩
    · exact ⟨hl.ref, rfl, hl.dev, hl.inum, fun _ => hvalid, hl.valid, hl.invalid⟩
    · rw [← (ht.node _).type]
      exact (hl.valid hvalid).2
  · refine ⟨_, g, ht.setSlot hs { s with lock := true } ?_ rfl, hl.busy.symm.trans hbusy, ?_,
      (Afs.lock_of_some hs).symm⟩
    · exact ⟨hl.ref, rfl, hl.dev, hl.inum, fun _ => rfl, fun _ => ⟨rfl, hne⟩, nofun⟩
    · rw [← (ht.node _).type]
      exact hne

/-- `inode_unlock` undoes `inode_lock`. -/
theorem acts_inodeUnlock (hs : a.slot ip = some s) (hfree : s.lock = false) :
    Acts G ok (a.lock ip) (inodeUnlock ip) fun _ a' => a' = a := by
  intro t g ht
  rw [Afs.lock_of_some hs] at ht
  have hs' : (a.setSlot ip (some { s with lock := true })).slot ip = some { s with lock := true } :=
    a.setSlot_self ..
  have hl := ht.live hs'
  have hpos := s.pos
  have hopen : ¬ ((t.k.inode ip).busy = false ∨ (t.k.inode ip).ref < 1) := by
    rw [hl.busy, hl.ref, not_or]
    exact ⟨nofun, Nat.not_lt.mpr hpos⟩
  refine wp_critical (fun e he => ?_) fun _ k' hk' => ?_
  · rw [if_neg hopen] at he
    cases he
  · rw [if_neg hopen] at hk'
    cases hk'
    refine ⟨_, g, ht.setSlot hs' s ?_ rfl, ?_⟩
    · refine ⟨hl.ref, hfree.symm, hl.dev, hl.inum, fun h => ?_, hl.valid, hl.invalid⟩
      rw [hfree] at h
      cases h
    · rw [Afs.setSlot_setSlot, Afs.setSlot_eq _ hs]

/-! ### Dropping a reference -/

theorem Afs.setSlot_addRef (a : Afs) (ip x : ℕ) {so : Option Slot} :
    (a.addRef ip x).setSlot ip so = a.setSlot ip so := by
  unfold addRef
  rw [setSlot_setSlot]

theorem Afs.addRef_slot_other (a : Afs) {i ip : ℕ} (x : ℕ) (h : i ≠ ip) :
    (a.addRef ip x).slot i = a.slot i := a.setSlot_other _ h

/-- **`inode_put`** of a reference, unless it is the last one to a file without a name. -/
theorem acts_inodePut (hkeep : a.slot ip = none → ¬ (a.node x).Orphan) :
    Acts G ok (a.addRef ip x) (inodePut ip) fun _ a' => a' = a := by
  intro t g ht
  obtain ⟨s, hs, hl⟩ : ∃ s, (a.addRef ip x).slot ip = some s ∧ LiveSlot (t.k.inode ip) g.V s :=
    ⟨_, a.setSlot_self .., ht.live (a.setSlot_self ..)⟩
  have hsole := ht.sole hs
  have hnode : g.Is x (a.node x) := ht.node x
  have hnot : ¬ ((t.k.inode ip).ref = 1 ∧ (t.k.inode ip).valid ∧ (t.k.inode ip).d.nlink = 0) := by
    rintro ⟨href, hvalid, hnlink⟩
    rw [hl.ref] at href
    obtain ⟨hd, htype⟩ := hl.valid hvalid
    cases hsl : a.slot ip with
    | none =>
      rw [Afs.addRef_of_none hsl, a.setSlot_self] at hs
      obtain rfl := Option.some.inj hs
      refine hkeep hsl ⟨?_, ?_⟩
      · rw [← hnode.type]
        exact htype
      · rw [← hnode.nlink]
        exact hd ▸ hnlink
    | some s0 =>
      rw [Afs.addRef_of_some hsl, a.setSlot_self] at hs
      obtain rfl := Option.some.inj hs
      have hpos := s0.pos
      have href : s0.ref + 1 = 1 := href
      omega
  have hrun : t.k.inodePut ip =
      .ok (false, t.k.setInode ip { t.k.inode ip with ref := (t.k.inode ip).ref - 1 }) := by
    unfold Kmem.inodePut
    rw [if_neg hnot]
  refine Prog.wp_bind.mpr (wp_critical (fun e he => ?_) fun last k' hk' => ?_)
  · rw [hrun] at he
    cases he
  rw [hrun] at hk'
  cases hk'
  cases hsl : a.slot ip with
  | none =>
    rw [Afs.addRef_of_none hsl, a.setSlot_self] at hs
    obtain rfl := Option.some.inj hs
    have hrep := ht.setInode (x := x) none (y := { t.k.inode ip with
      ref := (t.k.inode ip).ref - 1 }) hsole (fun _ => ?_) nofun
      (fun ho => absurd ho (hkeep hsl))
    · rw [Afs.setSlot_addRef, Afs.setSlot_eq _ hsl] at hrep
      exact ⟨a, g, hrep, rfl⟩
    · show (t.k.inode ip).ref - 1 = 0
      rw [hl.ref]
      rfl
  | some s0 =>
    rw [Afs.addRef_of_some hsl, a.setSlot_self] at hs
    obtain rfl := Option.some.inj hs
    have hrep := ht.setSlot (y := { t.k.inode ip with ref := (t.k.inode ip).ref - 1 })
      (a.setSlot_self ..) s0 ?_ ?_
    · rw [Afs.setSlot_addRef, Afs.setSlot_eq _ hsl] at hrep
      exact ⟨a, g, hrep, rfl⟩
    · refine ⟨?_, hl.busy, hl.dev, hl.inum, hl.locked, hl.valid, hl.invalid⟩
      show (t.k.inode ip).ref - 1 = s0.ref
      rw [hl.ref]
      rfl
    · rw [hsl]
      rfl

end Slots

end Fs

end Mcertikos
