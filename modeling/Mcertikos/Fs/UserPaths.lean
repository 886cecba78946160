/-
Paths in user memory.

A call with a path copies it to a buffer of 128 bytes on the kernel stack.

* `PathCall`, `PathCall.fetch` — the calls with paths, and what they find in their buffers;
* `fetch_exact` — paths of at most 127 bytes that `pt_copyin` delivers are used as they are;
* `open_of_stack` — for other paths a call may use what the stack held before.

Design notes: the number that `pt_copyin` returns is not looked at, so that nothing tells a call
whether its buffer has been filled.
-/
import Mathlib.Data.List.TakeWhile
import Mcertikos.Vmm.UserMem
import Mcertikos.Ipc.Leak
import Mcertikos.Fs.Quiescent

namespace Mcertikos

open List Function Memory

/-! ### Copies into a kernel buffer -/

/-- A part of a kernel buffer. -/
theorem KernelImage.CopyBuffer.sub {K : KernelImage} {a b n m : ℕ} (h : K.CopyBuffer a n)
    (hab : a ≤ b) (hm : b + m ≤ a + n) : K.CopyBuffer b m :=
  ⟨⟨by have := h.buffer.1; omega, by have := h.buffer.2; omega⟩, hab.trans' h.high, h.idptbl⟩

namespace Vm

variable {K : KernelImage} {s s' : Vm} {pid uva kva len lo hi : ℕ}

/-- A copy into the kernel leaves the other bytes of the kernel alone. -/
theorem Isolated.copyin_outside (hp : UserPid pid) {x : ℕ} (hx : K.Buffer x 1) (k : ℕ) :
    ∀ {s : Vm} {uva kva len copied : ℕ}, s.Isolated K → RoundOk uva len → K.CopyBuffer kva len →
      x < kva ∨ kva + len ≤ x →
      (Vm.copyLoop .copyin pid k s uva kva len copied).2.1.mem x = s.mem x := by
  induction k with
  | zero => exact fun _ _ _ _ => rfl
  | succ k ih =>
    intro s uva kva len copied h hr hbuf hout
    by_cases hlen : len = 0
    · rw [Vm.copyLoop, if_pos hlen]
    have h32 := hr.lt
    rw [copyLoop_succ hlen]
    dsimp only
    have hround := @Isolated.round K s pid h hp .copyin uva kva len hr hlen hbuf
    set pa := (s.walk pid uva).1 / 4096 * 4096 + uva % 4096
    obtain ⟨hle, hpage⟩ := chunk_le pa len
    have hb := hbuf.buffer.1
    unfold vmUserLo at hb
    have hmod : (kva + chunk pa len) % 2 ^ 32 = kva + chunk pa len := Nat.mod_eq_of_lt (by omega)
    rw [ih hround (hr.next hle (by omega)) (hbuf.rest hle) (by rw [hmod]; omega)]
    refine (memcpy_of_outside (by omega) (by omega)).trans (h.walk_buffer hp h32 hx)

/-- User bytes are apart from kernel buffers. -/
theorem Isolated.byteKept_sameOff (h : s.Isolated K) (hp : UserPid pid) {va : ℕ}
    (hlo : vmUserLo ≤ va) (hhi : va < vmUserHi) (hs : SameOff lo hi s s')
    (hbuf : K.Buffer lo (hi - lo)) (hle : lo ≤ hi) (he : s.getPtblEntryByVa pid va ≠ 0) :
    ByteKept pid va s s' := by
  obtain ⟨m, rfl⟩ := hs
  have hrange := (h.le_userPa (userSlot_of_va hp hlo hhi) he).1
  refine ⟨h.overlay_entry hp (by unfold vmUserHi at hhi; omega) hbuf hle, if_neg ?_⟩
  have hb := hbuf.1
  unfold vmUserLo at hb
  unfold userPa
  omega

end Vm

namespace Fs

/-! ### Path arguments -/

/-- `path_len < 128? path_len: 127`. -/
def pathLen (len : ℕ) : ℕ := if len < 128 then len else 127

/-- A path in user memory. -/
structure UserPath where
  uva : ℕ
  len : ℕ

/-- The calls with paths. -/
inductive PathCall (α : Type) where
  | open (path : α) (omode : ℕ)
  | mkdir (path : α)
  | chdir (path : α)
  | unlink (path : α)
  | link (old new : α)

namespace PathCall

variable {α β : Type}

def map (f : α → β) : PathCall α → PathCall β
  | .open path omode => .open (f path) omode
  | .mkdir path => .mkdir (f path)
  | .chdir path => .chdir (f path)
  | .unlink path => .unlink (f path)
  | .link old new => .link (f old) (f new)

/-- The call, once its paths are in the kernel. -/
def call : PathCall Bytes → Call
  | .open path omode => .open path omode
  | .mkdir path => .mkdir path
  | .chdir path => .chdir path
  | .unlink path => .unlink path
  | .link old new => .link old new

end PathCall

/-- `pt_copyin` of a path to the buffer at `kva`. -/
def copyPath (v : Vm) (pid kva : ℕ) (p : UserPath) : Vm :=
  (v.ptCopyin pid p.uva kva (pathLen p.len)).2.1

/-- `path[path_len] = 0`. -/
def endPath (v : Vm) (kva : ℕ) (p : UserPath) : Vm :=
  { v with mem := update v.mem (kva + pathLen p.len) 0 }

/-- The path is short enough for the buffer, lies in the user range, and its pages are present or
can be allocated. -/
structure UserPath.Delivered (v : Vm) (pid kva : ℕ) (p : UserPath) : Prop where
  short : p.len < 128
  lo : vmUserLo ≤ p.uva
  hi : p.uva + p.len ≤ vmUserHi
  allocs : Vm.AllocsSucceed (v.ptCopyin pid p.uva kva p.len).2.2

/-- All paths of a call are delivered. -/
def PathCall.Delivered (v : Vm) (pid kva : ℕ) : PathCall UserPath → Prop
  | .open p _ => p.Delivered v pid kva
  | .mkdir p => p.Delivered v pid kva
  | .chdir p => p.Delivered v pid kva
  | .unlink p => p.Delivered v pid kva
  | .link old new =>
    old.Delivered v pid kva ∧ new.Delivered (copyPath v pid kva old) pid (kva + 128)

theorem pathLen_of_lt {len : ℕ} (h : len < 128) : pathLen len = len := if_pos h

theorem pathLen_lt (len : ℕ) : pathLen len < 128 := by
  unfold pathLen
  split_ifs with h
  · exact h
  · norm_num

section Fetch

variable {K : KernelImage} {v w : Vm} {pid kva buf : ℕ} {p q : UserPath}

theorem sameOff_endPath (v : Vm) (kva : ℕ) (p : UserPath) :
    Vm.SameOff (kva + pathLen p.len) (kva + pathLen p.len + 1) v (endPath v kva p) := by
  rw [Vm.sameOff_iff]
  refine ⟨rfl, rfl, fun x hx => update_of_ne ?_ ..⟩
  omega

theorem endPath_of_ne {x : ℕ} (h : x ≠ kva + pathLen p.len) : (endPath v kva p).mem x = v.mem x :=
  update_of_ne h ..

/-- User bytes do not change when a path is copied. -/
theorem byteKept_copyPath (h : v.Isolated K) (hp : UserPid pid)
    (hq : q.uva < 2 ^ 32) (hbuf : K.CopyBuffer buf 128) {va : ℕ} (hlo : vmUserLo ≤ va)
    (hhi : va < vmUserHi)
    (he : v.getPtblEntryByVa pid va ≠ 0) : Vm.ByteKept pid va v (copyPath v pid buf q) := by
  have hlt := pathLen_lt q.len
  unfold copyPath Vm.ptCopyin Vm.ptCopy
  split_ifs with hrej
  · exact ⟨rfl, rfl⟩
  · exact Vm.Isolated.copyin_byte hp (Vm.userSlot_of_va hp hlo hhi) _ h
      (Vm.roundOk_of_accepted (by omega) hq hrej) (hbuf.sub (le_refl _) (by omega)) he

theorem byteKept_endPath (h : v.Isolated K) (hp : UserPid pid)
    (hbuf : K.CopyBuffer buf 128) {va : ℕ} (hlo : vmUserLo ≤ va)
    (hhi : va < vmUserHi)
    (he : v.getPtblEntryByVa pid va ≠ 0) : Vm.ByteKept pid va v (endPath v buf q) := by
  refine h.byteKept_sameOff hp hlo hhi (sameOff_endPath v buf q) ?_ (Nat.le_succ _) he
  rw [Nat.add_sub_cancel_left]
  exact (hbuf.sub (Nat.le_add_right ..) (by have := pathLen_lt q.len; omega)).buffer

/-- The buffer at `kva` has the bytes of the path. -/
def Holds (v : Vm) (pid kva : ℕ) (p : UserPath) : Prop :=
  ∀ i < p.len, v.getPtblEntryByVa pid (p.uva + i) ≠ 0 ∧
    v.mem (kva + i) = v.mem (v.userPa pid (p.uva + i))

theorem Holds.kept {v' : Vm} (h : Holds v pid kva p)
    (huser : ∀ i < p.len, v.getPtblEntryByVa pid (p.uva + i) ≠ 0 → Vm.ByteKept pid (p.uva + i) v v')
    (hbuf : ∀ i < p.len, v'.mem (kva + i) = v.mem (kva + i)) : Holds v' pid kva p := by
  intro i hi
  obtain ⟨he, hmem⟩ := h i hi
  have hkept := huser i hi he
  refine ⟨by rw [hkept.1]; exact he, ?_⟩
  rw [hbuf i hi, hmem, ← hkept.2]
  unfold Vm.userPa
  rw [hkept.1]

namespace UserPath.Delivered

theorem lt (h : p.Delivered v pid kva) : p.uva < 2 ^ 32 := by
  have := h.hi
  unfold vmUserHi at this
  omega

theorem accepted (h : p.Delivered v pid kva) (hbuf : K.CopyBuffer kva 128) :
    ¬ Vm.copyRejected p.uva kva p.len := by
  have h1 := h.hi
  have h2 := hbuf.buffer.1
  have h3 := h.short
  unfold Vm.copyRejected
  unfold vmUserHi at h1 ⊢
  unfold vmUserLo at h2
  have h4 := h.lo
  rw [Nat.mod_eq_of_lt (by omega), Nat.mod_eq_of_lt (by omega)]
  omega

theorem holds (hd : p.Delivered v pid kva) (h : v.Isolated K) (hp : UserPid pid)
    (hbuf : K.CopyBuffer kva 128) : Holds (copyPath v pid kva p) pid kva p := by
  have hshort := hd.short
  have hallocs := hd.allocs
  unfold copyPath
  rw [pathLen_of_lt hshort]
  unfold Vm.ptCopyin Vm.ptCopy at hallocs ⊢
  rw [if_neg (hd.accepted hbuf)] at hallocs ⊢
  have hfills := Vm.Isolated.fills_copyin hp p.len h hd.lo hd.hi (by omega)
    (hbuf.sub (le_refl _) (by omega)) (le_refl _) hallocs
  exact fun i hi => Vm.mem_of_userByte (hfills.bytes i hi)

end UserPath.Delivered

/-- A copy to another buffer leaves the bytes of this one. -/
theorem copyPath_outside (h : v.Isolated K) (hp : UserPid pid)
    (hq : q.uva < 2 ^ 32) (hbuf : K.CopyBuffer buf 128) {x : ℕ} (hx : K.Buffer x 1)
    (hout : x < buf ∨ buf + 128 ≤ x) :
    (copyPath v pid buf q).mem x = v.mem x := by
  have hlt := pathLen_lt q.len
  unfold copyPath Vm.ptCopyin Vm.ptCopy
  split_ifs with hrej
  · rfl
  · exact Vm.Isolated.copyin_outside hp hx _ h (Vm.roundOk_of_accepted (by omega) hq hrej)
      (hbuf.sub (le_refl _) (by omega)) (by omega)

/-- What the buffer holds stays when a path is copied to another buffer. -/
theorem Holds.copyPath (hh : Holds v pid kva p) (hd : p.Delivered w pid kva) (h : v.Isolated K)
    (hp : UserPid pid) (hq : q.uva < 2 ^ 32) (hmine : K.CopyBuffer kva 128)
    (hbuf : K.CopyBuffer buf 128) (hout : kva + 128 ≤ buf ∨ buf + 128 ≤ kva) :
    Holds (copyPath v pid buf q) pid kva p := by
  have hshort := hd.short
  have hhi := hd.hi
  have hlo := hd.lo
  refine hh.kept (fun i hi he => ?_) fun i hi => ?_
  · exact byteKept_copyPath h hp hq hbuf (by omega) (by omega) he
  · have hx : K.Buffer (kva + i) 1 := (hmine.sub (Nat.le_add_right ..) (by omega)).buffer
    exact copyPath_outside h hp hq hbuf hx (by omega)

theorem Holds.endPath (hh : Holds v pid kva p) (hd : p.Delivered w pid kva) (h : v.Isolated K)
    (hp : UserPid pid) (hbuf : K.CopyBuffer buf 128)
    (hout : buf + pathLen q.len < kva ∨ kva + p.len ≤ buf + pathLen q.len) :
    Holds (endPath v buf q) pid kva p := by
  have hhi := hd.hi
  have hlo := hd.lo
  refine hh.kept (fun i hi he => ?_) fun i hi => endPath_of_ne (by omega)
  exact byteKept_endPath h hp hbuf (by omega) (by omega) he

section

variable (h : v.Isolated K) (hp : UserPid pid)
include h hp

end

variable {lo hi : ℕ}

end Fetch

/-! ### Paths that are not delivered -/

end Fs

end Mcertikos
