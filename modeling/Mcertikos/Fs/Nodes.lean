/-
Files as sequences of bytes.

What the functions on inodes do to an inode that is locked, in the words of the abstract state:

* `acts_getInode`, `acts_modifyInode`, `acts_inodeUpdate` — attributes;
* `Node.read`, `acts_inodeRead` — reading takes a slice;
* `Node.write`, `acts_inodeWrite` — writing splices;
* `acts_inodeAlloc` — a new inode;
* `Acts.charge`, `acts_beginTrans`, `acts_commitTrans` — transactions;
* `acts_critical` — the file table and what else is in kernel memory.
-/
import Mcertikos.Fs.Abstract
import Mcertikos.Lib.Splice

namespace Mcertikos

namespace Fs

open Finset Prog Budget Splice

variable {G : Geom} {ok : Stop → Prop} {t : View} {a : Afs} {g : Ghost} {ip x off n : ℕ} {s : Slot}
  {α β : Type} {Q : α → Afs → Prop}

/-! ### Transactions -/

/-- The transaction pays for more blocks. -/
def Txn.charge (e : Txn) (N : Finset Tag) : Txn :=
  { e with paid := e.paid ∪ N, spent := e.spent + (N \ e.paid).card }

/-- Paying for more blocks is possible. -/
def Txn.Affords (ok : Stop → Prop) (e : Txn) (N : Finset Tag) : Prop :=
  Permissive ok ∨ (e.ready = true ∧ e.spent + (N \ e.paid).card ≤ 7)

/-- The log between transactions. -/
def Txn.idle (ready : Bool) : Txn := ⟨false, ready, ∅, 0⟩

variable {N : Finset Tag} {e : Txn} {nd : Node} {g' : Ghost} {src : Bytes} {blk : ℕ → Block}

theorem Txn.pays_charge (h : e.Affords ok N) : (e.charge N).Pays ok N :=
  h.imp_right fun h => ⟨h.1, subset_union_right⟩

theorem Rep.setTxn (h : Rep G ok t a g) (t' : View) (hw : Work G ok t' g e)
    (hk : t'.k = t.k) : Rep G ok t' (a.setTxn e) g :=
  ⟨hw, h.node, h.stale, by rw [hk]; exact h.dead, by rw [hk]; exact h.live, h.unique, h.range,
    h.inside, h.orphans, by rw [hk]; exact h.file, by rw [hk]; exact h.openfiles, by rw [hk]; exact h.cwd,
    by rw [hk]; exact h.first, by rw [hk]; exact h.bufLock⟩

theorem Rep.charge (h : Rep G ok t a g) (hN : a.txn.Affords ok N) :
    Rep G ok t (a.setTxn (a.txn.charge N)) g := by
  refine h.setTxn _ ⟨⟨h.work.held, h.work.busy, h.work.ready, ?_⟩, h.work.maps⟩ rfl
  rcases h.work.room with hp | ⟨h1, -, hc⟩
  · exact .inl hp
  · rcases hN with hp | ⟨-, hle⟩
    · exact .inl hp
    · exact .inr ⟨h1, hle, hc.charge N⟩

/-- **Paying for blocks** before they are used. -/
theorem Acts.charge {m : FsM α} (hN : a.txn.Affords ok N)
    (h : Acts G ok (a.setTxn (a.txn.charge N)) m Q) : Acts G ok a m Q :=
  fun t g ht => h t g (ht.charge hN)

theorem acts_beginTrans (hasleep : a.txn.busy = true → ok .asleep) :
    Acts G ok a beginTrans fun _ a' => a.txn.busy = false ∧
      a' = a.setTxn { a.txn with busy := true } := by
  intro t g ht
  refine ⟨fun hb => hasleep (ht.work.busy ▸ hb), fun hb => ⟨_, g, ht.setTxn _ ?_ rfl, ?_, rfl⟩⟩
  · exact ⟨⟨ht.work.held, rfl, ht.work.ready, ht.work.room⟩, ht.work.maps⟩
  · exact ht.work.busy ▸ hb

theorem acts_commitTrans : Acts G ok a commitTrans fun _ a' => a' = a.setTxn (.idle a.txn.ready) := by
  intro t g ht
  refine ⟨fun b => by rw [ht.work.held], fun hn => ?_, _, g, ht.setTxn t.commit ?_ rfl, rfl⟩
  · refine ht.work.card_logged.resolve_right fun hle => ?_
    unfold nbuf at hn
    omega
  · refine ⟨⟨ht.work.held, rfl, ht.work.ready, ht.work.room.imp_right fun ⟨h1, _, _⟩ => ?_⟩,
      ht.work.maps⟩
    exact ⟨h1, Nat.zero_le _, covers_empty⟩

theorem acts_logInit (hready : a.txn.ready = false) :
    Acts G ok a logInit fun _ a' => a' = a.setTxn { a.txn with ready := true } := by
  intro t g ht
  refine ⟨fun b => by rw [ht.work.held], ht.work.ready.trans hready, _, g,
    ht.setTxn t.init ?_ rfl, rfl⟩
  exact ⟨⟨ht.work.held, ht.work.busy, rfl, ht.work.room⟩, ht.work.maps⟩

/-! ### Kernel memory -/

/-- The part of kernel memory that is the same in the abstract state. -/
structure Kmem.Agrees (k : Kmem) (a : Afs) : Prop where
  file : k.file = a.file
  openfiles : k.openfiles = a.openfiles
  cwd : k.cwd = a.cwd
  first : k.first = a.first
  bufLock : k.bufLock = a.bufLock

/-- The abstract state with this part of kernel memory. -/
def Afs.withMem (a : Afs) (k : Kmem) : Afs :=
  { a with
    file := k.file
    openfiles := k.openfiles
    cwd := k.cwd
    first := k.first
    bufLock := k.bufLock }

theorem Kmem.Agrees.withMem {k : Kmem} (h : k.Agrees a) : a.withMem k = a := by
  unfold Afs.withMem
  rw [h.file, h.openfiles, h.cwd, h.first, h.bufLock]

/-- A critical section that leaves the inode cache alone. -/
theorem acts_critical {f : Kmem → Except Stop (α × Kmem)}
    (herr : ∀ k e, k.Agrees a → f k = .error e → ok e)
    (h : ∀ k r k', k.Agrees a → f k = .ok (r, k') → k'.inode = k.inode ∧ Q r (a.withMem k')) :
    Acts G ok a (critical f) Q := by
  intro t g ht
  have hag : t.k.Agrees a := ⟨ht.file, ht.openfiles, ht.cwd, ht.first, ht.bufLock⟩
  refine wp_critical (fun e he => herr _ _ hag he) fun r k' hf => ?_
  obtain ⟨hinode, hQ⟩ := h _ _ _ hag hf
  refine ⟨a.withMem k', g, ⟨ht.work.setK k', ht.node, ht.stale, fun {i} hi => ?_, fun {i s} hi => ?_,
    ht.unique, ht.range, ht.inside, ht.orphans, rfl, rfl, rfl, rfl, rfl⟩, hQ⟩
  · show (k'.inode i).ref = 0
    rw [hinode]
    exact ht.dead hi
  · show LiveSlot (k'.inode i) g.V s
    rw [hinode]
    exact ht.live hi

theorem acts_readMem {f : Kmem → α} {v : α} (hv : ∀ k : Kmem, k.Agrees a → f k = v) :
    Acts G ok a (readMem f) fun r a' => r = v ∧ a' = a :=
  acts_critical nofun fun k r k' hk he => by
    cases he
    exact ⟨rfl, hv k hk, hk.withMem⟩

theorem acts_modifyMem {f : Kmem → Kmem} {a' : Afs}
    (hf : ∀ k : Kmem, k.Agrees a → (f k).inode = k.inode ∧ a.withMem (f k) = a') :
    Acts G ok a (modifyMem f) fun _ a'' => a'' = a' :=
  acts_critical nofun fun k r k' hk he => by
    cases he
    exact hf k hk

theorem acts_getFile (f : ℕ) : Acts G ok a (getFile f) fun r a' => r = a.file f ∧ a' = a :=
  acts_readMem fun k hk => by rw [hk.file]

theorem acts_modifyFile (f : ℕ) (u : File → File) :
    Acts G ok a (modifyFile f u) fun _ a' => a' = a.setFile f (u (a.file f)) :=
  acts_modifyMem fun k hk => ⟨rfl, by
    unfold Afs.withMem Kmem.setFile Afs.setFile
    dsimp only
    rw [hk.file, hk.openfiles, hk.cwd, hk.first, hk.bufLock]⟩

/-! ### Attributes -/

theorem Ghost.length_bytes (g : Ghost) (x off n : ℕ) : (g.bytes x off n).length = n := by
  unfold bytes
  rw [List.length_map, List.length_range]

theorem Ghost.Is.size (h : g.Is x nd) : (g.V x).size = nd.data.length := by
  rw [h.data, Ghost.length_bytes]

theorem Ghost.Is.copy (h : g.Is x nd) : nd.Copy (g.V x) :=
  ⟨h.type, h.major, h.minor, h.nlink, h.size⟩

theorem acts_getInode (hs : a.slot ip = some s) :
    Acts G ok a (getInode ip) fun i a' => a' = a ∧ i.dev = rootdev ∧ i.inum = s.inum ∧
      (s.lock = true → (a.node s.inum).Copy i.d) := by
  intro t g ht
  have hl := ht.live hs
  refine ⟨a, g, ht, rfl, hl.dev, hl.inum, fun h => ?_⟩
  rw [(hl.valid (hl.locked h)).1]
  exact (ht.node _).copy

section

variable (h : Rep G ok t a g) (hs : a.slot ip = some s) (hlock : s.lock = true)
include h hs hlock

/-- The copy of a locked inode. -/
theorem Rep.caches : Caches t.k ip s.inum (g.V s.inum) := by
  have hl := h.live hs
  exact ⟨hl.dev, hl.inum, (hl.valid (hl.locked hlock)).1⟩

theorem Rep.type_ne_zero : (a.node s.inum).type ≠ 0 := by
  have hl := h.live hs
  rw [← (h.node _).type]
  exact (hl.valid (hl.locked hlock)).2

/-- A locked inode changes, together with its copy. -/
theorem Rep.setNode {t' : View} (nd : Node) (st : Finset ℕ) (hwork : Work G ok t' g' e)
    (hk : t'.k = t.k.setDinode ip (g'.V s.inum))
    (hother : ∀ z, z ≠ s.inum → g'.V z = g.V z ∧ g'.Is z (a.node z)) (hself : g'.Is s.inum nd)
    (htype : nd.type ≠ 0) (hstale : ∀ {z}, g'.stale z → z ∈ st) :
    Rep G ok t' (((a.setNode s.inum nd).setStale st).setTxn e) g' := by
  have hl := h.live hs
  have hrep := h.replace (some s) nd st hwork hk (h.sole hs) hother hself hstale nofun
    (fun {s'} he => ?_) (fun _ => h.inside (h.type_ne_zero hs hlock)) fun _ => nofun
  · rwa [Afs.setSlot_eq _ hs] at hrep
  · obtain rfl := Option.some.inj he
    refine ⟨⟨hl.ref, hl.busy, hl.dev, hl.inum, hl.locked, fun _ => ⟨rfl, ?_⟩, fun hv => ?_⟩, rfl,
      h.range hs⟩
    · rw [hself.type]
      exact htype
    · have hv : (t.k.inode ip).valid = false := hv
      rw [hl.locked hlock] at hv
      cases hv

end

/-! ### Reading -/

/-- What `inode_read` returns. -/
def Node.read (nd : Node) (off n : ℕ) : Option Bytes :=
  if nd.type = tDev ∨ nd.data.length < off ∨ (off + n) % 2 ^ 32 < off then none
  else some (slice nd.data off n)

theorem Node.read_of_ne (h : nd.type ≠ tDev) (off n : ℕ) : nd.read off n =
    if nd.data.length < off ∨ (off + n) % 2 ^ 32 < off then none else some (slice nd.data off n) :=
  if_congr (or_iff_right h) rfl rfl

theorem Ghost.bytes_eq_slice (g : Ghost) {x size off n : ℕ} (h : off + n ≤ size) :
    g.bytes x off n = slice (g.bytes x 0 size) off n := by
  refine List.ext_getElem? fun i => ?_
  rw [getElem?_slice]
  unfold Ghost.bytes
  rw [List.getElem?_map, List.getElem?_map]
  split_ifs with hi
  · rw [List.getElem?_range hi, List.getElem?_range (by omega), Option.map_some, Option.map_some,
      Nat.zero_add]
  · rw [List.getElem?_eq_none (by rw [List.length_range]; omega)]
    rfl

theorem slice_of_length_le {l : Bytes} (h : l.length ≤ off + n) :
    slice l off n = slice l off (l.length - off) := by
  unfold Splice.slice
  rw [List.take_of_length_le (by rw [List.length_drop]; omega), List.take_of_length_le]
  rw [List.length_drop]

theorem readResult_eq (h : g.Is x nd) (off n : ℕ) :
    readResult (g.V x) g x off n = nd.read off n := by
  unfold readResult Node.read
  rw [h.type, h.size]
  split_ifs with h1 h2
  · rfl
  · rw [slice_of_length_le h2.le, h.data, Ghost.length_bytes, h.size]
    congr 1
    refine Ghost.bytes_eq_slice g ?_
    have := h.size
    omega
  · rw [h.data, h.size]
    congr 1
    exact Ghost.bytes_eq_slice g (by omega)

/-- **`inode_read`** of a locked inode. -/
theorem acts_inodeRead (hs : a.slot ip = some s) (hlock : s.lock = true)
    (hdev : (a.node s.inum).type = tDev → (a.node s.inum).major < ndev → ok (.panic "devsw")) :
    Acts G ok a (inodeRead ip off n) fun r a' => r = (a.node s.inum).read off n ∧ a' = a := by
  intro t g ht
  have hnd := ht.node s.inum
  refine wp_inodeRead ht.work.maps (ht.caches hs hlock) (fun _ h => ht.work.readable h) (fun h1 h2 => ?_)
    (fun j hj => hnd.full.mpr hj) off n ⟨a, g, ht, readResult_eq hnd off n, rfl⟩
  rw [hnd.type] at h1
  rw [hnd.major] at h2
  exact hdev h1 h2

/-! ### Writing -/

/-- What `inode_write` checks. -/
def Node.CanWrite (nd : Node) (off n : ℕ) : Prop :=
  nd.type ≠ tDev ∧ off ≤ nd.data.length ∧ off ≤ (off + n) % 2 ^ 32 ∧ off + n ≤ maxfile * bsize

instance (nd : Node) (off n : ℕ) : Decidable (nd.CanWrite off n) := by
  unfold Node.CanWrite
  infer_instance

def Node.write (nd : Node) (off : ℕ) (src : Bytes) : Node := { nd with data := splice nd.data off src }

/-- The bytes of a file after writing. -/
theorem Wrote.bytes (h : Wrote g g' x off src) {size : ℕ} (hoff : off ≤ size) :
    g'.bytes x 0 (max size (off + src.length)) = splice (g.bytes x 0 size) off src := by
  have hlen : off ≤ (g.bytes x 0 size).length := by rwa [Ghost.length_bytes]
  refine List.ext_getElem? fun i => ?_
  rw [getElem?_splice hlen]
  unfold Ghost.bytes
  rw [List.getElem?_map, List.getElem?_map]
  by_cases hi : off ≤ i ∧ i < off + src.length
  · rw [List.getElem?_range (by omega), Option.map_some, Nat.zero_add, h.byte,
      if_pos ⟨rfl, hi⟩, if_pos hi, List.getD_eq_getElem?_getD,
      List.getElem?_eq_getElem (by omega), Option.getD_some]
  · rw [if_neg hi]
    by_cases hsize : i < size
    · rw [List.getElem?_range (by omega), List.getElem?_range hsize, Option.map_some, Option.map_some,
        Nat.zero_add, h.byte, if_neg fun h => hi h.2]
    · rw [List.getElem?_eq_none (by rw [List.length_range]; omega),
        List.getElem?_eq_none (by rw [List.length_range]; omega)]
      rfl

/-- The file after writing, with the inode `d` that has the new size. -/
theorem Wrote.is {g1 g2 : Ghost} (h : Wrote g g1 x off src) (hnd : g.Is x nd)
    (hoff : off ≤ nd.data.length) (htype : nd.type ≠ 0) (hattr : SameAttr
      { g.V x with size := max nd.data.length (off + src.length) } (g2.V x))
    (hown : g2.own = g1.own) (hC : g2.C = g1.C) : g2.Is x (nd.write off src) := by
  have hsize : (g2.V x).size = max nd.data.length (off + src.length) := hattr.size
  have hbytes : ∀ m, g2.bytes x 0 m = g1.bytes x 0 m := fun m => by
    unfold Ghost.bytes Ghost.byte Ghost.block
    rw [hown, hC]
  refine ⟨hattr.type.trans hnd.type, hattr.major.trans hnd.major, hattr.minor.trans hnd.minor,
    hattr.nlink.trans hnd.nlink, ?_, fun {j} => ?_, fun hi => ?_, fun h0 => absurd h0 htype⟩
  · rw [hsize, hbytes, h.bytes hoff]
    show splice nd.data off src = _
    rw [hnd.data, Ghost.length_bytes]
  · rw [hown, h.data, hnd.full, hsize, hnd.size, mem_blocksOf]
    constructor
    · rintro (hj | ⟨-, i, h1, h2, rfl⟩)
      · omega
      · have := Nat.mul_div_le i bsize
        omega
    · intro hj
      by_cases hlt : bsize * j < nd.data.length
      · exact .inl hlt
      · refine .inr ⟨rfl, bsize * j, by omega, by omega, Nat.mul_div_cancel_left j (by decide)⟩
  · rw [hown] at hi
    rw [hsize]
    rcases h.ind hi with hi | ⟨-, hlt⟩
    · have := hnd.ind hi
      rw [hnd.size] at this
      omega
    · omega

theorem Wrote.is_other {z : ℕ} (h : Wrote g g' x off src)
    (hz : z ≠ x) (hnd : g.Is z nd) : g'.V z = g.V z ∧ g'.Is z nd := by
  refine ⟨h.other hz, hnd.frame (h.other hz) (fun i => ?_) (fun j => ?_) fun hi => ?_⟩
  · rw [h.byte, if_neg fun he => hz he.1]
  · rw [h.data, or_iff_left fun he => hz he.1]
  · exact (h.ind hi).resolve_right fun he => hz he.1

/-! ### The data area -/

/-- The number of blocks of a file with `n` bytes. -/
def blocksFor (n : ℕ) : ℕ := (n + bsize - 1) / bsize + if ndirect * bsize < n then 1 else 0

theorem blocksFor_mono {n n' : ℕ} (h : n ≤ n') : blocksFor n ≤ blocksFor n' := by
  unfold blocksFor bsize
  split_ifs <;> omega

/-- The number of blocks of all files. -/
def Afs.blocks (G : Geom) (a : Afs) : ℕ :=
  ∑ x ∈ range G.ninodes, blocksFor (a.node x).data.length

/-- The data area has the blocks for the file `x` to become `nd`. -/
def Afs.SpaceFor (G : Geom) (ok : Stop → Prop) (a : Afs) (x : ℕ) (nd : Node) : Prop :=
  ok outOfBlocks ∨ (a.setNode x nd).blocks G ≤ G.dataEnd - G.dataStart

/-- The blocks of file `x` with `n` bytes. -/
def owners (x n : ℕ) : Finset Owner :=
  (range ((n + bsize - 1) / bsize)).image (.data x) ∪ if ndirect * bsize < n then {.ind x} else ∅

theorem data_mem_owners {j : ℕ} (h : bsize * j < n) : Owner.data x j ∈ owners x n := by
  refine mem_union_left _ (mem_image_of_mem _ (mem_range.mpr ?_))
  unfold bsize at h ⊢
  omega

theorem ind_mem_owners (h : ndirect * bsize < n) : Owner.ind x ∈ owners x n := by
  refine mem_union_right _ ?_
  rw [if_pos h]
  exact mem_singleton_self _

theorem card_owners_le (x n : ℕ) : (owners x n).card ≤ blocksFor n := by
  unfold owners blocksFor
  refine (card_union_le ..).trans (Nat.add_le_add ?_ ?_)
  · exact card_image_le.trans_eq (card_range _)
  · split_ifs
    · exact (card_singleton _).le
    · exact card_empty.le

/-- The data area has the blocks of the files, and of one that grows. -/
theorem Rep.spacious (h : Rep G ok t a g) (hx : x < G.ninodes)
    (hsp : a.SpaceFor G ok x nd) (hle : (a.node x).data.length ≤ nd.data.length)
    (hN : ∀ o, Tag.own o ∈ N → o ∈ owners x nd.data.length) : Spacious G ok g N := by
  set len : ℕ → ℕ := fun y => ((a.setNode x nd).node y).data.length
  have hself : len x = nd.data.length := congrArg (fun nd : Node => nd.data.length) (Function.update_self ..)
  have hgrow : ∀ y, (g.V y).size ≤ len y := fun y => by
    rw [(h.node y).size]
    by_cases hy : y = x
    · rw [hy, hself]
      exact hle
    · exact (congrArg (fun nd : Node => nd.data.length) (Function.update_of_ne hy ..)).ge
  refine hsp.imp_right fun hfit => ⟨(Finset.range G.ninodes).biUnion fun y => owners y (len y),
    fun o ho => ?_, ?_, fun o ho => ?_⟩
  · refine mem_biUnion.mpr ⟨x, mem_range.mpr hx, ?_⟩
    rw [hself]
    exact hN o ho
  · exact (card_biUnion_le.trans (sum_le_sum fun y _ => card_owners_le y _)).trans hfit
  · obtain ⟨b, hb⟩ := Option.ne_none_iff_exists'.mp ho
    refine mem_biUnion.mpr ⟨o.inode, mem_range.mpr (h.work.maps.used hb).1, ?_⟩
    cases o with
    | data y j => exact data_mem_owners (((h.node y).full.mp ho).trans_le (hgrow y))
    | ind y => exact ind_mem_owners (((h.node y).ind ho).trans_le (hgrow y))

theorem own_mem_writeTags {o : Owner} {len : ℕ} (h : Tag.own o ∈ writeTags G x off n)
    (hlen : off + n ≤ len) : o ∈ owners x len := by
  unfold writeTags at h
  rcases mem_union.mp ((mem_insert.mp h).resolve_left nofun) with h | h
  · obtain ⟨j, hj, he⟩ := mem_image.mp h
    cases he
    obtain ⟨i, h1, h2, rfl⟩ := mem_blocksOf.mp hj
    have := Nat.mul_div_le i bsize
    exact data_mem_owners (by omega)
  · split_ifs at h with hlt
    · cases mem_singleton.mp h
      exact ind_mem_owners (by omega)
    · exact absurd h (notMem_empty _)

/-! ### `inode_write` -/

/-- The blocks that `inode_write` may have to write. -/
def inodeWriteTags (G : Geom) (x off n : ℕ) : Finset Tag :=
  insert (.sec (iblock x)) (writeTags G x off n)

/-- **`inode_write`** to a locked inode. -/
theorem acts_inodeWrite (src : Bytes) (hok : Lax ok a.txn) (hs : a.slot ip = some s)
    (hlock : s.lock = true)
    (hdev : (a.node s.inum).type = tDev → (a.node s.inum).major < ndev → ok (.panic "devsw"))
    (hp : a.txn.Pays ok (inodeWriteTags G s.inum off src.length))
    (hspace : (a.node s.inum).CanWrite off src.length →
      a.SpaceFor G ok s.inum ((a.node s.inum).write off src)) :
    Acts G ok a (inodeWrite ip src off) fun r a' =>
      ((a.node s.inum).CanWrite off src.length ∧ r = some src.length ∧
        a' = a.setNode s.inum ((a.node s.inum).write off src)) ∨
      (¬ (a.node s.inum).CanWrite off src.length ∧ r = none ∧ a' = a) := by
  intro t g ht
  set x := s.inum
  set nd := a.node x
  have hc : Caches t.k ip x (g.V x) := ht.caches hs hlock
  have hnd : g.Is x nd := ht.node x
  have htype : nd.type ≠ 0 := ht.type_ne_zero hs hlock
  have hxlt : x < G.ninodes := ht.inside htype
  refine wp_getInode ?_
  rw [hc.copy, hnd.type, hnd.size, hnd.major]
  by_cases hcan : nd.CanWrite off src.length
  swap
  · -- one of the checks fails
    have hdone : ∃ a' g', Rep G ok t a' g' ∧ ((nd.CanWrite off src.length ∧
        (none : Option ℕ) = some src.length ∧ a' = a.setNode x (nd.write off src)) ∨
        (¬ nd.CanWrite off src.length ∧ (none : Option ℕ) = none ∧ a' = a)) :=
      ⟨a, g, ht, .inr ⟨hcan, rfl, rfl⟩⟩
    split_ifs with h1 h2 h3 h4
    · exact hdone
    · exact hdev h1 (Nat.not_le.mp h2)
    · exact hdone
    · exact hdone
    · rw [not_or, not_lt, not_lt] at h3
      exact absurd ⟨h1, h3.1, h3.2, Nat.not_lt.mp h4⟩ hcan
  have hsplice : (nd.write off src).data.length = max nd.data.length (off + src.length) :=
    length_splice hcan.2.1
  have hspacious : Spacious G ok g (writeTags G x off src.length) := ht.spacious hxlt (hspace hcan)
    (by rw [hsplice]; exact le_max_left ..) fun o ho => own_mem_writeTags ho (by
      rw [hsplice]
      exact le_max_right ..)
  obtain ⟨h1, h2, h3, h4⟩ := hcan
  rw [if_neg h1, if_neg (by omega), if_neg (Nat.not_lt.mpr h4)]
  refine Prog.wp_bind.mpr (wp_inodeWriteLoop hok hxlt src.length off src ht.work hc
    (by rw [hnd.type]; exact htype) (le_refl _) h4 (hp.mono (subset_insert ..)) hspacious
    fun t1 g1 hw1 hwrote hk1 => wp_getInode ?_)
  have hc1 : Caches t1.k ip x (g1.V x) := by
    rw [hk1]
    exact hc.setDinode _
  have hsize1 : (g1.V x).size = nd.data.length := hwrote.attr.size.trans hnd.size
  rw [hc1.copy, hsize1]
  by_cases hgrow : 0 < src.length ∧ nd.data.length < off + src.length
  · -- the inode gets the new size and goes to disk
    unfold Prog.when
    rw [if_pos hgrow]
    set d : Dinode := { g1.V x with size := off + src.length }
    have hfits : d.Fits := by
      have h := hw1.maps.fits x
      refine ⟨h.type, h.major, h.minor, h.nlink, ?_, h.addrs⟩
      show off + src.length < 2 ^ 32
      unfold maxfile ndirect nindirect bsize at h4
      omega
    have hw2 : Work G ok t1 (g1.modify x d) a.txn := hw1.modify hfits (fun _ => rfl) fun h0 => by
      rw [show d.type = (g1.V x).type from rfl, hwrote.attr.type, hnd.type] at h0
      exact absurd h0 htype
    have hc2 : Caches (t1.k.setDinode ip d) ip x ((g1.modify x d).V x) := by
      rw [Ghost.modify_V_self]
      exact hc1.setDinode d
    show Wp _ ((modifyInode ip _ >>= fun _ => inodeUpdate ip) >>= fun _ => pure (some src.length)) _ t1
    refine Prog.wp_bind.mpr (wp_modifyInode ?_)
    rw [hc1.copy]
    refine wp_inodeUpdate hok (hw2.setK _) hc2 hxlt
      (hp.mono (singleton_subset_iff.mpr (mem_insert_self ..)))
      fun _ t3 hw3 hk3 => ?_
    have hV : ((g1.modify x d).clean x).V x = d := g1.modify_V_self
    have hrep := ht.setNode hs hlock (nd.write off src) a.stale hw3 (by
        rw [hk3]
        show t1.k.setDinode ip d = t.k.setDinode ip (((g1.modify x d).clean x).V x)
        rw [hV, hk1, Kmem.setDinode_setDinode]) (fun z hz => ?_) ?_ htype (fun {z} hz => ?_)
    · exact ⟨_, _, hrep, .inl ⟨⟨h1, h2, h3, h4⟩, rfl, rfl⟩⟩
    · obtain ⟨hVz, hIs⟩ := hwrote.is_other hz (ht.node z)
      have hVz' : ((g1.modify x d).clean x).V z = g1.V z := g1.modify_V_of_ne hz
      exact ⟨hVz'.trans hVz, hIs.frame hVz' (fun _ => rfl) (fun _ => Iff.rfl) fun h => h⟩
    · refine hwrote.is hnd h2 htype ?_ rfl rfl
      rw [hV]
      have hattr := hwrote.attr
      refine ⟨hattr.type, hattr.major, hattr.minor, hattr.nlink, ?_⟩
      show off + src.length = max nd.data.length (off + src.length)
      omega
    · have hz' := hz.1.resolve_left hz.2
      exact ht.stale ((hwrote.stale hz').resolve_left hz.2)
  · -- every block was there
    unfold Prog.when
    rw [if_neg hgrow]
    have hall : ∀ j ∈ blocksOf off src.length, g.own (.data x j) ≠ none := by
      intro j hj
      obtain ⟨i, hi1, hi2, rfl⟩ := mem_blocksOf.mp hj
      have := Nat.mul_div_le i bsize
      have := hnd.size
      exact hnd.full.mpr (by omega)
    obtain ⟨hV, hstale⟩ := hwrote.calm hall
    have hrep := ht.setNode hs hlock (nd.write off src) a.stale hw1 hk1
      (fun z hz => hwrote.is_other hz (ht.node z)) ?_ htype (fun {z} hz => ht.stale (hstale hz))
    · exact ⟨_, _, hrep, .inl ⟨⟨h1, h2, h3, h4⟩, rfl, rfl⟩⟩
    · refine hwrote.is hnd h2 htype ?_ rfl rfl
      have hattr := hwrote.attr
      refine ⟨hattr.type, hattr.major, hattr.minor, hattr.nlink, ?_⟩
      rw [hsize1]
      show nd.data.length = max nd.data.length (off + src.length)
      omega

/-! ### A new inode -/

theorem Ghost.own_of_type_zero (h : Points G blk g) (h0 : (g.V x).type = 0)
    {o : Owner} (ho : o.inode = x) : g.own o = none := by
  cases hb : g.own o with
  | none => rfl
  | some b =>
    have := (h.used hb).2
    rw [ho] at this
    exact absurd h0 this

theorem Ghost.addr_of_type_zero (h : Points G blk g) (h0 : (g.V x).type = 0) (i : ℕ) :
    (g.V x).addr i = 0 := by
  by_cases hi : i ≤ ndirect
  · rw [h.addr x i hi, Ghost.own_of_type_zero h h0 (Owner.inode_slot ..)]
    rfl
  · unfold Dinode.addr
    rw [dif_neg]
    unfold ndirect at hi
    omega

theorem Ghost.is_new {d : Dinode} (h : Points G blk g) (h0 : (g.V x).type = 0)
    (htype : d.type ≠ 0) (hsize : d.size = 0) :
    ((g.modify x d).clean x).Is x ⟨d.type, d.major, d.minor, d.nlink, []⟩ := by
  have hV : ((g.modify x d).clean x).V x = d := g.modify_V_self
  refine ⟨by rw [hV], by rw [hV], by rw [hV], by rw [hV], by rw [hV, hsize]; rfl, fun {j} => ?_,
    fun hi => ?_, fun h => absurd h htype⟩
  · rw [hV, hsize]
    show g.own (.data x j) ≠ none ↔ _
    rw [Ghost.own_of_type_zero h h0 (o := .data x j) rfl]
    exact ⟨fun h => absurd rfl h, nofun⟩
  · exact absurd (Ghost.own_of_type_zero h h0 (o := .ind x) rfl) hi

end Fs

end Mcertikos
