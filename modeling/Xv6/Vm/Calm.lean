import Xv6.Framework.Meets
import Xv6.Vm.Sysfile

/-!
# Calls that move no reference

Memory management does not touch the tables that count references, and it
never ends in the two panics that guard them. A page fault, a copy to user
space, `sbrk` and the commit of `exec` leave every reference where it is.
-/

namespace Xv6.Vm

open Framework

/-- `panic("filedup")` and `panic("fileclose")`. -/
def RefPanic (e : Panic) : Prop := e = .filedup ∨ e = .fileclose

instance (e : Panic) : Decidable (RefPanic e) :=
  inferInstanceAs (Decidable (_ ∨ _))

/-- The call does not end in one of these panics. -/
def Calm {α : Type} (x : Except Panic α) : Prop :=
  Meets RefPanic x fun _ => True

namespace Calm

variable {α β : Type}

theorem ok (a : α) : Calm (.ok a : Except Panic α) :=
  Meets.ok trivial

theorem error {e : Panic} (h : ¬ RefPanic e) :
    Calm (.error e : Except Panic α) :=
  Meets.error h

theorem bind {x : Except Panic α} {f : α → Except Panic β} (h : Calm x)
    (hf : ∀ a, Calm (f a)) : Calm (x >>= f) :=
  Meets.bind h fun a _ => hf a

/-- What it returns is known from elsewhere. -/
theorem meets {x : Except Panic α} {Q : α → Prop} (h : Calm x)
    (hx : ∀ a, x = .ok a → Q a) : Meets RefPanic x Q :=
  Meets.imp h fun a ha _ => hx a ha

theorem foldlM {f : β → α → Except Panic β} {as : List α} {s : β}
    (hround : ∀ s a, Calm (f s a)) : Calm (as.foldlM f s) :=
  Meets.foldlM_inv (I := fun _ => True) (fun s a _ => hround s a) trivial

end Calm

/-! ## Frames and page tables -/

theorem kfree_calm (km : Kmem) (f : Frame) : Calm (kfree km f) := by
  unfold kfree
  split
  · exact .error (by decide)
  · exact .ok _

theorem kwrite_calm (km : Kmem) (a : ℕ) (bs : List UInt8) :
    Calm (kwrite km a bs) := by
  unfold kwrite
  split
  · exact .ok _
  · exact .error (by decide)

theorem walk_calm (pt : PageTable) (va : ℕ) : Calm (walk pt va) := by
  unfold walk
  split
  · exact .ok _
  · exact .error (by decide)

theorem walkAlloc_calm (km : Kmem) (pt : PageTable) (va : ℕ) :
    Calm (walkAlloc km pt va) := by
  unfold walkAlloc
  split
  · split
    · exact .ok _
    · split
      · exact .ok _
      · exact .ok _
  · exact .error (by decide)

theorem mappages_calm (km : Kmem) (pt : PageTable) (va : ℕ) (f : Frame)
    (perm : Perm) : Calm (mappages km pt va f perm) := by
  unfold mappages
  split
  · exact .error (by decide)
  · refine (walkAlloc_calm ..).bind ?_
    rintro ⟨km, pt, found⟩
    dsimp only
    split
    · split
      · exact .error (by decide)
      · exact .ok _
    · exact .ok _

theorem uvmunmapLoop_calm (doFree : Bool) : ∀ (n a : ℕ) (km : Kmem)
    (pt : PageTable), Calm (uvmunmapLoop doFree n a km pt) := by
  intro n
  induction n with
  | zero => exact fun _ _ _ => .ok _
  | succ n ih =>
    intro a km pt
    rw [uvmunmapLoop]
    refine (walk_calm ..).bind fun e => ?_
    split
    · refine Calm.bind ?_ fun km => ih ..
      unfold kfreeIf
      split
      · exact kfree_calm ..
      · exact .ok _
    · exact ih ..

theorem uvmunmap_calm (km : Kmem) (pt : PageTable) (va npages : ℕ)
    (doFree : Bool) : Calm (uvmunmap km pt va npages doFree) := by
  unfold uvmunmap
  split
  · exact .error (by decide)
  · exact uvmunmapLoop_calm ..

/-! ## User memory -/

theorem uvmdealloc_calm (km : Kmem) (pt : PageTable) (oldsz newsz : ℕ) :
    Calm (uvmdealloc km pt oldsz newsz) := by
  unfold uvmdealloc
  split
  · exact .ok _
  · split
    · exact (uvmunmap_calm ..).bind fun r => .ok _
    · exact .ok _

theorem uvmallocLoop_calm (lo : ℕ) (perm : Perm) : ∀ (n a : ℕ) (km : Kmem)
    (pt : PageTable), Calm (uvmallocLoop lo perm n a km pt) := by
  intro n
  induction n with
  | zero => exact fun _ _ _ => .ok _
  | succ n ih =>
    intro a km pt
    rw [uvmallocLoop]
    split
    · exact (uvmdealloc_calm ..).bind fun r => .ok _
    · refine (mappages_calm ..).bind ?_
      rintro ⟨km, pt, done⟩
      dsimp only
      split
      · exact ih ..
      · refine (kfree_calm ..).bind fun km => ?_
        exact (uvmdealloc_calm ..).bind fun r => .ok _

theorem uvmalloc_calm (km : Kmem) (pt : PageTable) (oldsz newsz : ℕ)
    (perm : Perm) : Calm (uvmalloc km pt oldsz newsz perm) := by
  unfold uvmalloc
  split
  · exact .ok _
  · exact (uvmallocLoop_calm ..).bind fun r => .ok _

theorem freewalkLeafPage_calm (km : Kmem) (t : Table Frame 512 (Option Leaf)) :
    Calm (freewalkLeafPage km t) := by
  unfold freewalkLeafPage
  split
  · split
    · exact .error (by decide)
    · exact .error (by decide)
  · exact kfree_calm ..

theorem freewalkMid_calm (km : Kmem) (m : Mid Frame 512 (Option Leaf)) :
    Calm (freewalkMid km m) := by
  unfold freewalkMid
  apply Calm.bind
  · apply Calm.foldlM
    intro km j
    split
    · exact freewalkLeafPage_calm ..
    · exact .ok _
  · intro km
    exact kfree_calm ..

theorem freewalk_calm (km : Kmem) (pt : PageTable) : Calm (freewalk km pt) := by
  unfold freewalk
  apply Calm.bind
  · apply Calm.foldlM
    intro km i
    split
    · exact freewalkMid_calm ..
    · exact .ok _
  · intro km
    exact kfree_calm ..

theorem uvmfree_calm (km : Kmem) (pt : PageTable) (sz : ℕ) :
    Calm (uvmfree km pt sz) := by
  unfold uvmfree
  split
  · exact (uvmunmap_calm ..).bind fun ⟨km, pt⟩ => freewalk_calm km pt
  · exact freewalk_calm ..

theorem procFreepagetable_calm (km : Kmem) (pt : PageTable) (sz : ℕ) :
    Calm (procFreepagetable km pt sz) := by
  unfold procFreepagetable
  refine (uvmunmap_calm ..).bind fun r => ?_
  exact (uvmunmap_calm ..).bind fun ⟨km, pt⟩ => uvmfree_calm km pt sz

/-! ## Page faults and files -/

theorem ilock_calm (s : State) (ip : Option InodeId) : Calm (ilock s ip) := by
  unfold ilock
  split
  · exact .error (by decide)
  · split
    · exact .error (by decide)
    · exact .ok _

theorem mapOrFree_calm (s : State) (km : Kmem) (va : ℕ) (mem : Frame)
    (perm : Perm) : Calm (mapOrFree s km va mem perm) := by
  unfold mapOrFree
  refine (mappages_calm ..).bind ?_
  rintro ⟨km, pt, done⟩
  dsimp only
  split
  · exact .ok _
  · exact (kfree_calm ..).bind fun km => .ok _

theorem vmfault_calm (s : State) (va : ℕ) (read : Bool) :
    Calm (vmfault s va read) := by
  unfold vmfault
  split
  · split
    · exact .ok _
    · unfold vmfaultVma
      dsimp only
      split
      · exact .ok _
      · split
        · exact .ok _
        · exact (ilock_calm ..).bind fun ip => mapOrFree_calm ..
  · unfold vmfaultHeap ismapped
    refine Calm.bind ?_ fun mapped => ?_
    · split
      · exact .ok _
      · exact .error (by decide)
    · split
      · exact .ok _
      · split
        · exact .ok _
        · exact mapOrFree_calm ..

/-! ## Nothing moves -/

/-- Every reference is where it was. -/
structure Still (s s' : State) : Prop where
  file : s'.file = s.file
  pipe : s'.pipe = s.pipe
  ref : ∀ j, (s'.inode j).ref = (s.inode j).ref
  ofile : s'.p.ofile = s.p.ofile
  vma : s'.p.vma = s.p.vma
  cwd : s'.p.cwd = s.p.cwd

namespace Still

variable {s s₁ s' : State}

theorem refl (s : State) : Still s s := ⟨rfl, rfl, fun _ => rfl, rfl, rfl, rfl⟩

theorem trans (h : Still s s₁) (h' : Still s₁ s') : Still s s' where
  file := h'.file.trans h.file
  pipe := h'.pipe.trans h.pipe
  ref := fun j => (h'.ref j).trans (h.ref j)
  ofile := h'.ofile.trans h.ofile
  vma := h'.vma.trans h.vma
  cwd := h'.cwd.trans h.cwd

/-- Memory and the other fields of the process are no references. -/
theorem of_same (hfile : s'.file = s.file) (hpipe : s'.pipe = s.pipe)
    (hinode : s'.inode = s.inode) (hofile : s'.p.ofile = s.p.ofile)
    (hvma : s'.p.vma = s.p.vma) (hcwd : s'.p.cwd = s.p.cwd) : Still s s' :=
  ⟨hfile, hpipe, fun j => by rw [hinode], hofile, hvma, hcwd⟩

theorem of_faulted {va r : ℕ} {read : Bool} (h : Faulted s va read s' r) :
    Still s s' := by
  cases h <;> exact of_same rfl rfl rfl rfl rfl rfl

end Still

theorem vmfault_still (s : State) (va : ℕ) (read : Bool) :
    Meets RefPanic (vmfault s va read) fun r => Still s r.1 :=
  (vmfault_calm s va read).meets fun _ h => .of_faulted (vmfault_spec h)

theorem usertrapFault_still (s : State) (va : ℕ) (read : Bool) :
    Meets RefPanic (usertrapFault s va read) (Still s) := by
  unfold usertrapFault
  refine (vmfault_still s va read).bind ?_
  rintro ⟨s₁, r⟩ h
  refine .ok ?_
  split
  · exact h.trans (.of_same rfl rfl rfl rfl rfl rfl)
  · exact h

theorem copyinPage_still (s : State) (va0 : ℕ) :
    Meets RefPanic (copyinPage s va0) fun r => Still s r.1 := by
  unfold copyinPage
  split
  · exact vmfault_still ..
  · exact .ok (.refl s)

theorem copyoutPage_still (s : State) (va0 : ℕ) :
    Meets RefPanic (copyoutPage s va0) fun r => Still s r.1 := by
  unfold copyoutPage
  split
  · exact .ok (.refl s)
  · refine (copyinPage_still s va0).bind ?_
    rintro ⟨s₁, pa0⟩ h
    dsimp only
    split
    · exact .ok h
    · split
      · exact .error (by decide)
      · exact .ok h
      · exact .ok h

theorem copyout_still (s : State) (dstva : ℕ) (src : List UInt8) :
    Meets RefPanic (copyout s dstva src) fun r => Still s r.1 := by
  fun_induction copyout s dstva src with
  | case1 s => exact .ok (.refl s)
  | case2 s dstva src _ va0 e hpage =>
    exact .error ((copyoutPage_still ..).fails e hpage)
  | case3 s dstva src _ va0 s₁ hpage =>
    exact .ok ((copyoutPage_still ..).returns _ hpage)
  | case4 s dstva src _ va0 s₁ pa0 hpage n e hwrite =>
    exact .error ((kwrite_calm ..).fails e hwrite)
  | case5 s dstva src _ va0 s₁ pa0 hpage n km hwrite ih =>
    have h₁ : Still s s₁ := (copyoutPage_still ..).returns _ hpage
    refine ih.mono fun r hr => (h₁.trans ?_).trans hr
    exact .of_same rfl rfl rfl rfl rfl rfl

theorem copyoutFds_still (s : State) (fdarray : UInt64)
    (fd₀ fd₁ : Fin NOFILE) :
    Meets RefPanic (copyoutFds s fdarray fd₀ fd₁) fun r => Still s r.1 := by
  unfold copyoutFds
  refine (copyout_still ..).bind ?_
  rintro ⟨s₁, done⟩ h
  dsimp only
  split
  · exact (copyout_still ..).mono fun r hr => h.trans hr
  · exact .ok h

theorem growproc_still (s : State) (n : Int32) :
    Meets RefPanic (growproc s n) fun r => Still s r.1 := by
  unfold growproc
  dsimp only
  split
  · exact .ok (.refl s)
  · split
    · refine Meets.bind (uvmalloc_calm ..) ?_
      rintro ⟨km, pt, sz⟩ -
      dsimp only
      split
      · exact .ok (.of_same rfl rfl rfl rfl rfl rfl)
      · exact .ok (.of_same rfl rfl rfl rfl rfl rfl)
    · split
      · refine Meets.bind (uvmdealloc_calm ..) fun _ _ => ?_
        exact .ok (.of_same rfl rfl rfl rfl rfl rfl)
      · exact .ok (.refl s)

theorem sysSbrk_still (s : State) (n t : Int32) :
    Meets RefPanic (sysSbrk s n t) fun r => Still s r.1 := by
  unfold sysSbrk
  dsimp only
  split
  · exact (growproc_still s n).bind fun r h => .ok h
  · split
    · exact .ok (.refl s)
    · exact .ok (.of_same rfl rfl rfl rfl rfl rfl)

theorem kexecCommit_still (s : State) (pt : PageTable) (sz : ℕ) :
    Meets RefPanic (kexecCommit s pt sz) (Still s) := by
  unfold kexecCommit
  refine Meets.bind (procFreepagetable_calm ..) fun km _ => ?_
  exact .ok (.of_same rfl rfl rfl rfl rfl rfl)

end Xv6.Vm
