import Xv6.Vm.AllOrNothing
import Xv6.Vm.Copyinstr
import Xv6.Vm.Sysfile

/-!
# `exec` (`kernel/exec.c`, `sys_exec` in `kernel/sysfile.c`)

The whole of `kexec` and of `sys_exec`: the headers of the file are decoded
from its bytes, the segments are loaded into a new page table, the arguments
are pushed onto a new stack, and the process is switched to the new image or
everything built so far is thrown away. The inode that `namei` finds comes
from outside. The strings of `argv` stand beside the pages that hold them.
-/

namespace Xv6.Exec

open Framework Vm

/-! ## Constants and structures (`kernel/param.h`, `kernel/elf.h`) -/

def MAXARG : ℕ := 32

def MAXPATH : ℕ := 128

def USERSTACK : ℕ := 1

def ELF_MAGIC : ℕ := 0x464C457F

def ELF_PROG_LOAD : ℕ := 1

/-- `sizeof(struct elfhdr)`. -/
def elfhdrSize : ℕ := 64

/-- `sizeof(struct proghdr)`. -/
def proghdrSize : ℕ := 56

/-- The number in `k` bytes from `i` on, the low byte first. -/
def leNat (b : ℕ → UInt8) : ℕ → ℕ → ℕ
  | _, 0 => 0
  | i, k + 1 => (b i).toNat + 256 * leNat b (i + 1) k

/-- The eight bytes of a `uint64`. -/
def wordBytes (x : ℕ) : List UInt8 :=
  (List.range 8).map fun k => UInt8.ofNat (x / 256 ^ k)

/-- `struct elfhdr`, the fields that `kexec` reads. -/
structure Elfhdr where
  magic : ℕ
  entry : ℕ
  phoff : ℕ
  phnum : ℕ

def Elfhdr.decode (b : ℕ → UInt8) : Elfhdr where
  magic := leNat b 0 4
  entry := leNat b 24 8
  phoff := leNat b 32 8
  phnum := leNat b 56 2

/-- `struct proghdr`, the fields that `kexec` reads. -/
structure Proghdr where
  type : ℕ
  flags : ℕ
  off : ℕ
  vaddr : ℕ
  filesz : ℕ
  memsz : ℕ

def Proghdr.decode (b : ℕ → UInt8) : Proghdr where
  type := leNat b 0 4
  flags := leNat b 4 4
  off := leNat b 8 8
  vaddr := leNat b 16 8
  filesz := leNat b 32 8
  memsz := leNat b 40 8

/-- The ways `exec` stops the kernel: a panic in a function it calls, its own
panics, a counter of `loadseg` that wraps around before it gets to the end, an
index outside `argv` or `ustack`, and `copyout` on a page of the new image that
is not there, which would fault it into the old one. -/
inductive Stop
  | panic (e : Panic)
  | loadseg
  | uvmclear
  | loop
  | range
  | vmfault
deriving DecidableEq

def lift {α : Type} (x : Except Panic α) : Except Stop α :=
  x.mapError Stop.panic

/-! ## Loading -/

/-- `readi(ip, 0, &x, off, n)` into a variable on the kernel stack: its bytes,
if all of them arrive. -/
def readVar (ip : Inode) (off n : ℕ) : Option (ℕ → UInt8) :=
  let r := readi ip ⟨[], fun _ => 0⟩ 0 off n
  if r.2 = n then some r.1.mem else none

/-- `PTE_R|PTE_U|flags2perm(flags)`. -/
def segPerm (flags : ℕ) : Perm :=
  userPerm { x := flags.testBit 0, w := flags.testBit 1 }

/-- The loop of `loadseg`, with the rounds that it takes `i` to get to `sz`;
the flag says whether it returned 0. -/
def loadsegLoop (pt : PageTable) (va : ℕ) (ip : Inode) (offset sz : ℕ) :
    ℕ → ℕ → Kmem → Except Stop (Kmem × Bool)
  | 0, i, km => if i < sz then .error .loop else .ok (km, true)
  | r + 1, i, km =>
      let pa := walkaddr pt ((va + i) % 2 ^ 64)
      if pa = 0 then .error .loadseg
      else
        let n := if sz - i < PGSIZE then sz - i else PGSIZE
        let rd := readi ip km pa ((offset + i) % 2 ^ 32) n
        if rd.2 = n then
          loadsegLoop pt va ip offset sz r ((i + PGSIZE) % 2 ^ 32) rd.1
        else .ok (rd.1, false)

/-- `loadseg`; `offset` and `sz` are `uint`. -/
def loadseg (km : Kmem) (pt : PageTable) (va : ℕ) (ip : Inode)
    (offset sz : ℕ) : Except Stop (Kmem × Bool) :=
  loadsegLoop pt va ip offset sz ((sz + PGSIZE - 1) / PGSIZE) 0 km

/-- The body of the loop over the program headers, once the header is read:
the page table and the size it got to, and whether the loop goes on. -/
def loadHeader (ip : Inode) (ph : Proghdr) (km : Kmem) (pt : PageTable)
    (sz : ℕ) : Except Stop (Kmem × PageTable × ℕ × Bool) :=
  if ph.type ≠ ELF_PROG_LOAD then .ok (km, pt, sz, true)
  else if ph.memsz < ph.filesz then .ok (km, pt, sz, false)
  else if (ph.vaddr + ph.memsz) % 2 ^ 64 < ph.vaddr then
    .ok (km, pt, sz, false)
  else if ph.vaddr % PGSIZE ≠ 0 then .ok (km, pt, sz, false)
  else do
    let (km, pt, sz1) ← lift (uvmalloc km pt sz
      ((ph.vaddr + ph.memsz) % 2 ^ 64) (segPerm ph.flags))
    if sz1 = 0 then .ok (km, pt, sz, false)
    else do
      let (km, done) ← loadseg km pt ph.vaddr ip (ph.off % 2 ^ 32)
        (ph.filesz % 2 ^ 32)
      .ok (km, pt, sz1, done)

/-- The loop over the program headers, with the headers still to go; `off` is
an `int`. -/
def loadHeaders (ip : Inode) :
    ℕ → ℤ → Kmem → PageTable → ℕ → Except Stop (Kmem × PageTable × ℕ × Bool)
  | 0, _, km, pt, sz => .ok (km, pt, sz, true)
  | n + 1, off, km, pt, sz =>
      match readVar ip (toUint32 off) proghdrSize with
      | none => .ok (km, pt, sz, false)
      | some b => do
          let (km, pt, sz, done) ←
            loadHeader ip (Proghdr.decode b) km pt sz
          if done then
            loadHeaders ip n (toInt32 (off + proghdrSize)) km pt sz
          else .ok (km, pt, sz, false)

/-- What `kexec` has built when it leaves the inode: a page table and its
size, and the header if nothing went wrong. -/
structure Loaded where
  km : Kmem
  pagetable : Option PageTable
  sz : ℕ
  elf : Option Elfhdr

/-- `kexec` up to the end of the loop over the headers. -/
def kexecLoad (km : Kmem) (trapframe : Frame) (ip : Inode) :
    Except Stop Loaded :=
  match readVar ip 0 elfhdrSize with
  | none => .ok ⟨km, none, 0, none⟩
  | some b =>
      let elf := Elfhdr.decode b
      if elf.magic ≠ ELF_MAGIC then .ok ⟨km, none, 0, none⟩
      else do
        let (km, made) ← lift (procPagetable km trapframe)
        match made with
        | none => .ok ⟨km, none, 0, none⟩
        | some pt => do
            let (km, pt, sz, done) ←
              loadHeaders ip elf.phnum (toInt32 elf.phoff) km pt 0
            .ok ⟨km, some pt, sz, if done then some elf else none⟩

/-! ## The stack -/

/-- `uvmclear`. -/
def uvmclear (pt : PageTable) (va : ℕ) : Except Stop PageTable := do
  match ← lift (walk pt va) with
  | none => .error .uvmclear
  | some none => .ok pt
  | some (some l) =>
      .ok (pt.setPte va (some { l with perm := { l.perm with u := false } }))

/-- `pa0` in `copyout` into an image that is not the process's own, unless it
gives up with -1 on this page. -/
def copyoutNewPage (pt : PageTable) (va0 : ℕ) : Except Stop (Option ℕ) :=
  if MAXVA ≤ va0 then .ok none
  else
    match pt.leaf va0 with
    | none => .error .vmfault
    | some l =>
        if l.perm.u = false then .error .vmfault
        else .ok (if l.perm.w then some l.frame.pa else none)

/-- `copyout(pagetable, dstva, src, len)` into an image that is not the
process's own; the flag says whether it returned 0. -/
def copyoutNew (km : Kmem) (pt : PageTable) (dstva : ℕ) (src : List UInt8) :
    Except Stop (Kmem × Bool) :=
  if src = [] then .ok (km, true)
  else
    let va0 := pgrounddown dstva
    match copyoutNewPage pt va0 with
    | .error e => .error e
    | .ok none => .ok (km, false)
    | .ok (some pa0) =>
        let n := min (PGSIZE - (dstva - va0)) src.length
        match kwrite km (pa0 + (dstva - va0)) (src.take n) with
        | .error e => .error (.panic e)
        | .ok km => copyoutNew km pt ((va0 + PGSIZE) % 2 ^ 64) (src.drop n)
termination_by src.length
decreasing_by
  rename_i hsrc
  have := pgrounddown_le dstva
  have := lt_pgrounddown_add dstva
  have : 0 < src.length := List.length_pos_iff.mpr hsrc
  rw [List.length_drop]
  omega

/-- The kernel's copy of `argv`. -/
abbrev Argv : Type := Fin MAXARG → Option (List UInt8)

/-- `argv[i]`. -/
def Argv.get (argv : Argv) (i : ℕ) : Except Stop (Option (List UInt8)) :=
  if h : i < MAXARG then .ok (argv ⟨i, h⟩) else .error .range

/-- `ustack[i] = x`. -/
def setUstack (ustack : Fin MAXARG → ℕ) (i x : ℕ) :
    Except Stop (Fin MAXARG → ℕ) :=
  if h : i < MAXARG then .ok (Function.update ustack ⟨i, h⟩ x)
  else .error .range

/-- `sp -= n; sp -= sp % 16;` -/
def push (sp n : ℕ) : ℕ :=
  let sp := toUint64 ((sp : ℤ) - n)
  sp - sp % 16

/-- The loop that copies the strings, from the string `argc` on; without a
result it goes to `bad`. -/
def pushStrings (pt : PageTable) (stackbase : ℕ) (argv : Argv) :
    ℕ → ℕ → ℕ → Kmem → (Fin MAXARG → ℕ) →
    Except Stop (Kmem × Option (ℕ × ℕ × (Fin MAXARG → ℕ)))
  | 0, _, _, _, _ => .error .range
  | n + 1, argc, sp, km, ustack => do
      match ← argv.get argc with
      | none => .ok (km, some (argc, sp, ustack))
      | some str =>
          if MAXARG ≤ argc then .ok (km, none)
          else
            let sp := push sp (str.length + 1)
            if sp < stackbase then .ok (km, none)
            else do
              let (km, done) ← copyoutNew km pt sp (str ++ [0])
              if done then do
                let ustack ← setUstack ustack argc sp
                pushStrings pt stackbase argv n (argc + 1) sp km ustack
              else .ok (km, none)

/-- The bytes of the first `n` entries of `ustack`. -/
def ustackBytes (ustack : Fin MAXARG → ℕ) (n : ℕ) : List UInt8 :=
  ((List.finRange MAXARG).take n).flatMap fun i => wordBytes (ustack i)

/-- The strings and then the array of pointers; without a result it goes to
`bad`. -/
def pushArgs (km : Kmem) (pt : PageTable) (sz : ℕ) (argv : Argv) :
    Except Stop (Kmem × Option (ℕ × ℕ)) := do
  let stackbase := toUint64 ((sz : ℤ) - USERSTACK * PGSIZE)
  let (km, pushed) ←
    pushStrings pt stackbase argv (MAXARG + 1) 0 sz km fun _ => 0
  match pushed with
  | none => .ok (km, none)
  | some (argc, sp, ustack) => do
      let ustack ← setUstack ustack argc 0
      let sp := push sp ((argc + 1) * 8)
      if sp < stackbase then .ok (km, none)
      else do
        let (km, done) ← copyoutNew km pt sp (ustackBytes ustack (argc + 1))
        .ok (km, if done then some (argc, sp) else none)

/-- The pages below the new stack, the guard page and the stack itself, and
what is pushed onto it: `argc` and `sp` unless it goes to `bad`. -/
def kexecStack (km : Kmem) (pt : PageTable) (sz : ℕ) (argv : Argv) :
    Except Stop (Kmem × PageTable × ℕ × Option (ℕ × ℕ)) := do
  let sz := pgroundup sz
  let (km, pt, sz1) ← lift (uvmalloc km pt sz
    ((sz + (USERSTACK + 1) * PGSIZE) % 2 ^ 64) (userPerm { w := true }))
  if sz1 = 0 then .ok (km, pt, sz, none)
  else do
    let pt ← uvmclear pt (toUint64 ((sz1 : ℤ) - (USERSTACK + 1) * PGSIZE))
    let (km, pushed) ← pushArgs km pt sz1 argv
    .ok (km, pt, sz1, pushed)

/-! ## `kexec` -/

/-- The kernel around the process that calls `exec`: beside its memory its
name, the inode whose sleep-lock it holds and the number of `begin_op` calls
that it has not ended. -/
structure Caller where
  st : State
  name : List UInt8
  locked : Option InodeId := none
  ops : ℕ := 0

namespace Caller

def beginOp (c : Caller) : Caller := { c with ops := c.ops + 1 }

def endOp (c : Caller) : Caller := { c with ops := c.ops - 1 }

def iunlockput (c : Caller) (j : InodeId) : Caller :=
  { c with st := iput c.st j, locked := none }

def setKmem (c : Caller) (km : Kmem) : Caller :=
  { c with st := { c.st with kmem := km } }

end Caller

/-- `if(pagetable) proc_freepagetable(pagetable, sz)`. -/
def freeImage (km : Kmem) (pagetable : Option PageTable) (sz : ℕ) :
    Except Stop Kmem :=
  match pagetable with
  | none => .ok km
  | some pt => lift (procFreepagetable km pt sz)

/-- `trapframe->epc`, `trapframe->sp` and `trapframe->a1`. -/
def trapframeEpc : ℕ := 24

def trapframeSp : ℕ := 48

def trapframeA1 : ℕ := 120

/-- The part of the path behind the last slash, cut to the length that
`safestrcpy` leaves it. -/
def execName (path : List UInt8) : List UInt8 :=
  ((path.reverse.takeWhile fun b => b ≠ 47).reverse).take 15

/-- The commit to the new image. -/
def kexecFinish (c : Caller) (path : List UInt8) (entry : ℕ) (pt : PageTable)
    (sz argc sp : ℕ) : Except Stop (Caller × Option ℕ) := do
  let s := c.st
  let km ← lift (kwrite s.kmem (s.p.trapframe.pa + trapframeA1) (wordBytes sp))
  let km ← lift (kwrite km (s.p.trapframe.pa + trapframeEpc) (wordBytes entry))
  let km ← lift (kwrite km (s.p.trapframe.pa + trapframeSp) (wordBytes sp))
  let km ← lift (procFreepagetable km s.p.pagetable s.p.sz)
  .ok ({ c with
    name := execName path
    st := { s with
      kmem := km, p := { s.p with pagetable := pt, sz := sz } } }, some argc)

/-- `kexec`, with the inode that `namei(path)` finds and the entry of the
inode table that holds it; a result of `none` is -1. -/
def kexec (c : Caller) (path : List UInt8) (exe : Option (InodeId × Inode))
    (argv : Argv) : Except Stop (Caller × Option ℕ) :=
  let c := c.beginOp
  match exe with
  | none => .ok (c.endOp, none)
  | some (j, ip) => do
      let c := { c with st := lookupInode c.st j ip }
      let j ← lift (ilock c.st (some j))
      let c := { c with locked := some j }
      let r ← kexecLoad c.st.kmem c.st.p.trapframe (c.st.inode j)
      match r.pagetable, r.elf with
      | some pt, some elf => do
          let c := ((c.setKmem r.km).iunlockput j).endOp
          let (km, pt, sz, pushed) ← kexecStack c.st.kmem pt r.sz argv
          match pushed with
          | some (argc, sp) =>
              kexecFinish (c.setKmem km) path elf.entry pt sz argc sp
          | none => do
              let km ← freeImage km (some pt) sz
              .ok (c.setKmem km, none)
      | pagetable, _ => do
          let km ← freeImage r.km pagetable r.sz
          .ok (((c.setKmem km).iunlockput j).endOp, none)

/-! ## `sys_exec` -/

/-- `fetchaddr`; a result of `none` is -1. -/
def fetchaddr (s : State) (addr : ℕ) : Except Panic (State × Option ℕ) :=
  if s.p.sz ≤ addr ∨ s.p.sz < (addr + 8) % 2 ^ 64 then .ok (s, none)
  else
    let r := copyin s addr 8
    match r.ret with
    | .error e => .error e
    | .ok false => .ok (r.st, none)
    | .ok true => .ok (r.st, some (leNat (fun i => r.dst.getD i 0) 0 8))

/-- An entry of the kernel's `argv`: the page, and the string in it. -/
structure Arg where
  page : Frame
  str : List UInt8

/-- The loop that fetches the arguments, with the rounds still to go; the flag
says whether it came to the end of the user's array. -/
def fetchArgs (uargv : ℕ) : ℕ → ℕ → State → List Arg →
    Except Stop (State × List Arg × Bool)
  | 0, _, s, args => .ok (s, args, false)
  | n + 1, i, s, args => do
      let (s, uarg) ← lift (fetchaddr s ((uargv + 8 * i) % 2 ^ 64))
      match uarg with
      | none => .ok (s, args, false)
      | some 0 => .ok (s, args, true)
      | some uarg =>
          match kalloc s.kmem with
          | none => .ok (s, args, false)
          | some (f, km) => do
              let s := { s with kmem := km }
              let (dst, got) := copyinstr s uarg PGSIZE
              let km ← lift (kwrite s.kmem f.pa dst)
              let s := { s with kmem := km }
              let args := args ++ [⟨f, dst.dropLast⟩]
              if got then fetchArgs uargv n (i + 1) s args
              else .ok (s, args, false)

/-- `for(i = 0; i < NELEM(argv) && argv[i] != 0; i++) kfree(argv[i]);` -/
def freeArgs (km : Kmem) (args : List Arg) : Except Stop Kmem :=
  args.foldlM (fun km a => lift (kfree km a.page)) km

/-- The array that `kexec` gets. -/
def toArgv (args : List Arg) : Argv := fun i => (args[i.val]?).map Arg.str

/-- `sys_exec`; `namei` finds the inode for a path. -/
def sysExec (c : Caller) (upath uargv : UInt64)
    (namei : List UInt8 → Option (InodeId × Inode)) :
    Except Stop (Caller × Option ℕ) :=
  let (dst, got) := copyinstr c.st upath.toNat MAXPATH
  if got then do
    let (s, args, done) ← fetchArgs uargv.toNat MAXARG 0 c.st []
    let c := { c with st := s }
    if done then do
      let (c, ret) ← kexec c dst.dropLast (namei dst.dropLast) (toArgv args)
      let km ← freeArgs c.st.kmem args
      .ok (c.setKmem km, ret)
    else do
      let km ← freeArgs c.st.kmem args
      .ok (c.setKmem km, none)
  else .ok (c, none)

end Xv6.Exec
