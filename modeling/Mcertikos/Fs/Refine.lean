/-
From abstract states to runs.

* `Stands` — a state of the system is one of the abstract state;
* `Acts.outcome` — what a program does to abstract states, it does to the system;
* `Afs.boot`, `stands_boot` — a system that starts from an image of `mkfs`.
-/
import Mcertikos.Fs.Mkfs
import Mcertikos.Fs.Names
import Mcertikos.Fs.Quiescent

namespace Mcertikos

namespace Fs

open Prog Hoare Budget Splice

/-! ### Runs -/

/-- The system is in the abstract state `a`. -/
def Stands (G : Geom) (ok : Stop → Prop) (s : FsSys) (a : Afs) : Prop :=
  ∃ t g, Rel G.area s t ∧ Rep G ok t a g

section Runs

variable {G : Geom} {ok : Stop → Prop} {s s' : FsSys} {a : Afs} {α : Type} {m : FsM α}
  {Q : α → Afs → Prop}

/-- **Whole runs**: a run from the abstract state ends as the rules say, unless the data area
is exhausted, or fails in an admitted way. -/
theorem Acts.outcome (h : Acts G ok a m Q) (hs : Stands G ok s a) : Outcome (exec m)
      (fun r s' => (Event.exhausts ∈ s'.seen ∧ ok outOfBlocks) ∨ ∃ a', Stands G ok s' a' ∧ Q r a')
      (fun e s' => (Event.exhausts ∈ s'.seen ∧ ok outOfBlocks) ∨ ok e) s := by
  obtain ⟨t, g, hrel, hrep⟩ := hs
  refine (View.outcome (h t g hrep) hrel).mono (fun r s' hr => hr.imp_right ?_) fun _ _ he => he
  rintro ⟨t', hrel', a', g', hrep', hq⟩
  exact ⟨a', ⟨t', g', hrel', hrep'⟩, hq⟩

/-- A run that returns, with enough data blocks. -/
theorem Acts.returns (h : Acts G ok a m Q) (hs : Stands G ok s a) {r : α} (hrun : exec m s = .ok r s')
    (hfree : ok outOfBlocks → Event.exhausts ∉ s'.seen) : ∃ a', Stands G ok s' a' ∧ Q r a' :=
  ((h.outcome hs).ok hrun).resolve_left fun he => hfree he.2 he.1

end Runs

/-! ### Boot -/

open Mkfs

/-- The files of an image. -/
def bootNode (files : List Input) (x : ℕ) : Node :=
  if x = rootino then ⟨tDir, 0, 0, 1, rootData files ++
    List.replicate (rootSize files - (rootData files).length) 0⟩
  else nodeOf files x

/-- The abstract state after boot: every process has the root as its working directory. -/
def Afs.boot (files : List Input) : Afs where
  node := bootNode files
  stale := ∅
  slot := fun i => if i = 0 then some ⟨rootino, numIds, false, by decide⟩ else none
  file := bootKmem.file
  openfiles := bootKmem.openfiles
  cwd := bootKmem.cwd
  first := bootKmem.first
  bufLock := bootKmem.bufLock
  txn := .idle false

/-- The image is on the root drive. -/
def Mkfs.On (m : Mkfs) (disk : Disk) : Prop := ∀ sec < size, disk.sec sec = m.sect sec

/-- A root drive with the image. -/
def Mkfs.disk (m : Mkfs) : Disk := fun a => m.sect (a % 2 ^ 28)

theorem Mkfs.on_disk (m : Mkfs) : m.On m.disk := fun sec hsec => by
  have hsec : sec < 1024 := hsec
  show m.sect (lba rootdev sec % 2 ^ 28) = m.sect sec
  congr 1
  unfold lba rootdev
  omega

/-- The view of a system that starts. -/
def bootView (disk : Disk) : View :=
  ⟨disk.sec, fun _ => none, fun _ => false, ∅, false, false, bootKmem⟩

section Boot

variable {files : List Input} {m : Mkfs} {g : Ghost} {disk : Disk} {ok : Stop → Prop}

theorem rel_boot (hform : Formatted m g files) (hon : m.On disk) (junk : ℕ → ℕ) :
    Rel geom.area (FsSys.boot disk junk) (bootView disk) := by
  have h1 : disk.sec 1 = m.sect 1 := hon 1 (by decide)
  have hsize : (disk.sec 1).read32 0 = 1024 := by
    rw [h1]
    exact hform.maps.super.size
  have hnlog : (disk.sec 1).read32 12 = 10 := by
    rw [h1]
    exact hform.maps.super.nlog
  have hhead : (disk.sec geom.dataEnd).read32 0 = 0 := by
    rw [hon _ (by decide), hform.log _ (le_refl _) (by decide)]
    exact Block.entry_zeroed 0
  refine ⟨rfl, boot_busy disk, nofun, ⟨disk.sec, ?_, fun _ _ => rfl, .inl ⟨rfl, ?_⟩⟩, ?_, ?_⟩
  · show Shows _ _ _ _ (Mcertikos.boot disk)
    unfold Mcertikos.boot
    exact ⟨⟨_, Bcache.cacheInv_bufcacheInit disk⟩, fun _ _ => rfl, nofun, nofun, nofun, fun _ _ _ => rfl⟩
  · show LogFresh _ _ _ (Mcertikos.boot disk).log
    unfold Mcertikos.boot
    exact ⟨rfl, rfl, rfl, rfl, hhead⟩
  · show superStart (disk.sec 1) = 1014
    unfold superStart
    rw [hsize, hnlog]
    norm_num
  · exact hnlog

theorem maps_boot (hform : Formatted m g files) (hon : m.On disk) :
    Maps geom (bootView disk).blk g := by
  have hlt : ∀ {b}, b < geom.dataEnd → disk.sec b = m.sect b := fun hb => hon _ (lt_size hb)
  have hpoints : Points geom disk.sec g := hform.maps.toPoints.frame (hlt Geom.one_lt_dataEnd)
    (fun x hx => hlt ((Geom.iblock_lt hx).trans Geom.bitmap_lt))
    fun ho => hlt (hform.maps.marks.inside ho).2
  refine ⟨hpoints, ?_⟩
  show Marks geom (disk.sec geom.bitmap) g.own
  rw [hlt Geom.bitmap_lt]
  exact hform.maps.marks

theorem rootSize_eq (hholes : (files.length + 2) % 32 ≠ 0) (j : ℕ) :
    bsize * j < rootSize files ↔ bsize * j < (rootData files).length := by
  rw [length_rootData]
  unfold rootSize bsize direntSize
  omega

/-- The files of the image, when the root directory has no hole. -/
theorem is_boot (hform : Formatted m g files) (hholes : (files.length + 2) % 32 ≠ 0) (x : ℕ) :
    g.Is x (bootNode files x) := by
  unfold bootNode
  split_ifs with hx
  · subst hx
    have hroot := hform.root
    refine ⟨hroot.type, hroot.major, hroot.minor, hroot.nlink, ?_, fun {j} => ?_, fun hi => ?_,
      fun h0 => absurd h0 (by decide : tDir ≠ 0)⟩
    · rw [show (g.V rootino).size = rootSize files from hroot.size]
      exact hform.entries.symm
    · rw [show (g.V rootino).size = rootSize files from hroot.size, hform.blocks, rootSize_eq hholes]
    · exact absurd hform.ind hi
  · exact hform.node x hx

theorem not_orphan_boot (files : List Input) (x : ℕ) : ¬ (bootNode files x).Orphan := by
  have hmade : ∀ {nd : Node}, nd.nlink = 1 → ¬ nd.Orphan := fun h ho => absurd (h.symm.trans ho.2) (by decide)
  have hnone : ¬ noNode.Orphan := fun ho => ho.1 rfl
  unfold bootNode nodeOf
  split_ifs
  · exact hmade rfl
  · cases files[x - 2]? with
    | none => exact hnone
    | some f => exact hmade rfl
  · exact hnone

/-- **Boot**: a system that starts from an image without a hole in its root directory. -/
theorem stands_boot (hform : Formatted m g files) (hon : m.On disk)
    (hholes : (files.length + 2) % 32 ≠ 0) (junk : ℕ → ℕ) :
    Stands geom ok (FsSys.boot disk junk) (Afs.boot files) := by
  refine ⟨bootView disk, g, rel_boot hform hon junk, ?_⟩
  have hwork : Work geom ok (bootView disk) g (.idle false) :=
    ⟨⟨rfl, rfl, rfl, .inr ⟨le_refl _, Nat.zero_le _, covers_empty⟩⟩, maps_boot hform hon⟩
  have hslot : ∀ {i s}, (Afs.boot files).slot i = some s → i = 0 ∧ s = ⟨rootino, numIds, false, by decide⟩ := by
    intro i s hi
    have hi : (if i = 0 then some ⟨rootino, numIds, false, _⟩ else none) = some s := hi
    split_ifs at hi with h0
    exact ⟨h0, (Option.some.inj hi).symm⟩
  refine ⟨hwork, is_boot hform hholes, fun hs => absurd hs (hform.stale _), fun {i} hi => ?_,
    fun {i s} hi => ?_, fun {i j s s'} hi hj _ => ?_, fun {i s} hi => ?_, fun {x} hx => ?_,
    fun {x} hx => absurd hx (not_orphan_boot files x), rfl, rfl, rfl, rfl, rfl⟩
  · have hne : i ≠ 0 := fun h0 => by
      rw [h0] at hi
      cases hi
    show ((rootKmem numIds).inode i).ref = 0
    exact congrArg Inode.ref (Kmem.setInode_other _ _ hne)
  · obtain ⟨rfl, rfl⟩ := hslot hi
    have hinode : (bootView disk).k.inode 0 = ⟨rootdev, rootino, numIds, false, false, Dinode.zero⟩ :=
      Kmem.setInode_self _ _ _
    rw [hinode]
    refine ⟨rfl, rfl, rfl, rfl, nofun, nofun, fun _ => .inr ?_⟩
    rw [hform.root.nlink]
    exact Nat.one_ne_zero
  · rw [(hslot hi).1, (hslot hj).1]
  · rw [(hslot hi).1]
    decide
  · have hcount := hform.count
    have hx : (bootNode files x).type ≠ 0 := hx
    show x < ninodes
    unfold bootNode nodeOf at hx
    unfold ninodes at hcount ⊢
    split_ifs at hx with h1 h2
    · rw [h1]
      decide
    · by_contra hge
      rw [List.getElem?_eq_none (by omega)] at hx
      exact hx rfl
    · exact absurd rfl hx

end Boot

end Fs

end Mcertikos
