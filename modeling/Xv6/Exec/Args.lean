import Xv6.Exec.Fetch
import Xv6.Exec.Segments
import Xv6.Framework.Meets

/-!
# The argument block (`kernel/sysfile.c`: `sys_exec`, `kernel/exec.c`)

The user's array of strings goes to pages of the kernel, from there onto the
new stack, and the pages go back. What the new program finds at `sp` is what
the old one passed: that many pointers and a null pointer, each pointing to
the same string as before, and nothing of it overlaps.
-/

namespace Xv6.Exec

open Framework Vm

variable {pool rest used : Multiset Frame} {km km' : Kmem} {c : Caller}

/-! ## How it can stop -/

/-- The kernel stops in a panic of memory management if at all: `loadseg` and
`uvmclear` do not panic, and no index is out of range. -/
def OnlyPanics {α : Type} (x : Except Stop α) : Prop :=
  Meets (fun e => ∀ p, e ≠ Stop.panic p) x fun _ => True

namespace OnlyPanics

variable {α β : Type}

theorem ok (a : α) : OnlyPanics (.ok a : Except Stop α) := Meets.ok trivial

theorem lift (x : Except Panic α) : OnlyPanics (lift x) := by
  cases x with
  | ok a => exact .ok a
  | error e => exact Meets.error fun h => h e rfl

theorem bind {x : Except Stop α} {f : α → Except Stop β} (h : OnlyPanics x)
    (hf : ∀ a, x = .ok a → OnlyPanics (f a)) : OnlyPanics (x >>= f) :=
  Meets.bind (Meets.imp h fun _ ha _ => ha) hf

end OnlyPanics

theorem fetchArgs_onlyPanics (uargv : ℕ) : ∀ n i s args,
    OnlyPanics (fetchArgs uargv n i s args) := by
  intro n
  induction n with
  | zero => exact fun _ _ _ => .ok _
  | succ n ih =>
    intro i s args
    refine (OnlyPanics.lift _).bind ?_
    rintro ⟨s, uarg⟩ -
    dsimp only
    split
    · exact .ok _
    · exact .ok _
    · split
      · exact .ok _
      · refine (OnlyPanics.lift _).bind ?_
        intro km _
        split
        · exact ih _ _ _
        · exact .ok _

theorem freeArgs_onlyPanics (km : Kmem) (args : List Arg) :
    OnlyPanics (freeArgs km args) :=
  Meets.foldlM_inv (I := fun _ => True) (fun _ _ _ => OnlyPanics.lift _)
    trivial

theorem kexec_onlyPanics {argv : Argv} (hled : Ledger pool c.st.kmem used)
    (path : List UInt8) (exe : Option (InodeId × Inode)) (hargv : argv.Ok) :
    OnlyPanics (kexec c path exe argv) := by
  rcases kexec_cases hled path exe hargv with
    ⟨c', hcall, -⟩ | ⟨c₁, entry, pt, sz, argc, sp, hcall, -⟩
  · rw [hcall]
    exact .ok _
  · rw [hcall]
    refine (OnlyPanics.lift _).bind fun _ _ => ?_
    refine (OnlyPanics.lift _).bind fun _ _ => ?_
    refine (OnlyPanics.lift _).bind fun _ _ => ?_
    exact (OnlyPanics.lift _).bind fun _ _ => .ok _

/-! ## The kernel's copy -/

/-- What `kexec` gets from `sys_exec`: it ends before the last entry of the
array, and each string fits in its page. -/
theorem toArgv_ok {s₀ : State} {uargv : ℕ} {args : List Arg}
    (hread : ArgsRead s₀ uargv args) (hlen : args.length < MAXARG) :
    (toArgv args).Ok where
  ends := ⟨⟨args.length, hlen⟩, by simp [toArgv]⟩
  fits := by
    intro i str hstr
    obtain ⟨a, ha, rfl⟩ := Option.map_eq_some_iff.mp hstr
    obtain ⟨hi, rfl⟩ := List.getElem?_eq_some_iff.mp ha
    exact (hread.string i.val hi).1

theorem ArgsRead.nil (s : State) (uargv : UInt64) :
    ArgsRead s uargv.toNat [] where
  inside := uargv.toNat_lt
  string := fun _ hi => absurd hi (Nat.not_lt_zero _)

variable {s : State}

theorem ArgsHeld.nil (h : Accounted pool rest s) :
    ArgsHeld pool rest s s [] := by
  refine ⟨?_, .refl s, .refl _⟩
  unfold argPages
  rw [List.map_nil, Multiset.coe_nil, zero_add]
  exact h

/-- `sys_exec` succeeds when `kexec` does, on the arguments it fetched. -/
theorem sysExec_fetched (h : Accounted pool rest c.st) {upath uargv : UInt64}
    {namei : List UInt8 → Option (InodeId × Inode)} {c' : Caller} {argc : ℕ}
    (hcall : sysExec c upath uargv namei = .ok (c', some argc)) :
    ∃ s args path c₁ km,
      ArgsHeld pool rest c.st s args ∧ ArgsRead c.st uargv.toNat args ∧
      UserWord c.st (uargv.toNat + 8 * args.length) 0 ∧
      (toArgv args).Ok ∧
      kexec { c with st := s } path (namei path) (toArgv args) =
        .ok (c₁, some argc) ∧
      freeArgs c₁.st.kmem args = .ok km ∧ c' = c₁.setKmem km := by
  unfold sysExec at hcall
  dsimp only at hcall
  split at hcall
  · obtain ⟨⟨s, args, done⟩, hfetch, hcall⟩ := bind_ok_iff.mp hcall
    obtain ⟨hheld, hdone⟩ :=
      fetchArgs_ok (.nil h) (.nil c.st uargv) hfetch
    cases done with
    | false =>
      obtain ⟨km, -, hcall⟩ := bind_ok_iff.mp hcall
      cases hcall
    | true =>
      obtain ⟨hlen, hread, hnull⟩ := hdone rfl
      obtain ⟨⟨c₁, ret⟩, hexec, hcall⟩ := bind_ok_iff.mp hcall
      obtain ⟨km, hfree, hcall⟩ := bind_ok_iff.mp hcall
      cases hcall
      rw [List.length_nil, Nat.zero_add] at hlen
      exact ⟨s, args, _, c₁, km, hheld, hread, hnull,
        toArgv_ok hread hlen, hexec, hfree, rfl⟩
  · cases hcall

theorem sysExec_onlyPanics (h : Accounted pool rest c.st)
    (upath uargv : UInt64)
    (namei : List UInt8 → Option (InodeId × Inode)) :
    OnlyPanics (sysExec c upath uargv namei) := by
  unfold sysExec
  dsimp only
  split
  · refine (fetchArgs_onlyPanics ..).bind ?_
    rintro ⟨s, args, done⟩ hfetch
    obtain ⟨hheld, hdone⟩ :=
      fetchArgs_ok (.nil h) (.nil c.st uargv) hfetch
    cases done with
    | false => exact (freeArgs_onlyPanics ..).bind fun _ _ => .ok _
    | true =>
      obtain ⟨hlen, hread, -⟩ := hdone rfl
      rw [List.length_nil, Nat.zero_add] at hlen
      refine OnlyPanics.bind ?_ ?_
      · exact kexec_onlyPanics hheld.accounted.ledger _ _
          (toArgv_ok hread hlen)
      · rintro ⟨c₁, ret⟩ -
        exact (freeArgs_onlyPanics ..).bind fun _ _ => .ok _
  · exact .ok _

/-! ## The new stack -/

/-- Where the string `i` is pushed from: the top of the stack, and below the
string before. -/
def pushedFrom (sz : ℕ) (addr : ℕ → ℕ) : ℕ → ℕ
  | 0 => sz
  | i + 1 => addr i

/-- **The argument block** at `sp`, as the new program sees it. -/
structure StackBlock (s : State) (sp : ℕ) (strs : List (List UInt8))
    (addr : ℕ → ℕ) : Prop where
  pointer : ∀ i < strs.length, UserWord s (sp + 8 * i) (addr i)
  null : UserWord s (sp + 8 * strs.length) 0
  string : ∀ (i : ℕ) (h : i < strs.length), UserString s (addr i) strs[i]
  aligned : sp % 16 = 0 ∧ ∀ i < strs.length, addr i % 16 = 0
  above : PGSIZE ≤ s.p.sz ∧ s.p.sz - PGSIZE ≤ sp
  below : sp + 8 * (strs.length + 1) ≤ s.p.sz ∧
    ∀ (i : ℕ) (h : i < strs.length), addr i + (strs[i].length + 1) ≤ s.p.sz
  apart : (∀ i < strs.length, sp + 8 * (strs.length + 1) ≤ addr i) ∧
    ∀ (i j : ℕ) (hj : j < strs.length), i < j →
      addr j + (strs[j].length + 1) ≤ addr i
  pushed : ∀ (i : ℕ) (h : i < strs.length),
    strs[i].length + 1 ≤ pushedFrom s.p.sz addr i ∧
    addr i = (pushedFrom s.p.sz addr i - (strs[i].length + 1)) / 16 * 16
  array : 8 * (strs.length + 1) ≤ pushedFrom s.p.sz addr strs.length ∧
    sp = (pushedFrom s.p.sz addr strs.length - 8 * (strs.length + 1)) / 16 * 16

section Block

variable {s : State} {pt : PageTable} {base argc sp : ℕ} {args : List Arg}
  {addr : Fin MAXARG → ℕ}

/-- The addresses of the strings, by number. -/
def addrOf (addr : Fin MAXARG → ℕ) (i : ℕ) : ℕ :=
  if h : i < MAXARG then addr ⟨i, h⟩ else 0

variable {i : ℕ}

theorem addrOf_lt (h : i < MAXARG) : addrOf addr i = addr ⟨i, h⟩ :=
  dif_pos h

/-- All of them are pushed. -/
theorem ArgBlock.length (h : ArgBlock km pt base (toArgv args) argc sp addr) :
    argc = args.length := by
  obtain ⟨hlt, hlast⟩ := h.last
  apply Nat.le_antisymm
  · by_contra hgt
    obtain ⟨str, top, hstr, -⟩ :=
      h.string ⟨args.length, by omega⟩ (Nat.lt_of_not_le hgt)
    simp [toArgv] at hstr
  · simpa [toArgv] using hlast

/-- String `i` is pushed from where the one before it is. -/
theorem ArgBlock.pushed (h : ArgBlock km pt base (toArgv args) argc sp addr)
    (hi : i < args.length) :
    args[i].str.length + 1 ≤ pushedFrom (base + PGSIZE) (addrOf addr) i ∧
    addrOf addr i = (pushedFrom (base + PGSIZE) (addrOf addr) i -
      (args[i].str.length + 1)) / 16 * 16 ∧
    sp + 8 * (args.length + 1) ≤ addrOf addr i ∧
    pushedFrom (base + PGSIZE) (addrOf addr) i ≤ base + PGSIZE ∧
    ∀ k ≤ args[i].str.length, imageByte km pt (addrOf addr i + k) =
      some ((args[i].str ++ [0]).getD k 0) := by
  have hargc := h.length
  obtain ⟨hlt, -⟩ := h.last
  have hmax : i < MAXARG := by omega
  obtain ⟨str, top, hstr, hfirst, hnext, hle, haddr, hlow, htop, hbytes⟩ :=
    h.string ⟨i, hmax⟩ (hargc ▸ hi)
  have harg : str = args[i].str := by
    simpa [toArgv, hi] using hstr.symm
  have hfrom : pushedFrom (base + PGSIZE) (addrOf addr) i = top := by
    cases i with
    | zero => exact (hfirst rfl).symm
    | succ i =>
      rw [pushedFrom, addrOf_lt (show i < MAXARG by omega)]
      exact (hnext ⟨i, by omega⟩ rfl).symm
  subst harg
  rw [hfrom, addrOf_lt hmax, ← hargc]
  exact ⟨hle, haddr, hlow, htop, hbytes⟩

/-- Strings that are pushed later lie below. -/
theorem ArgBlock.apart (h : ArgBlock km pt base (toArgv args) argc sp addr)
    {j : ℕ} (hj : j < args.length) (hij : i < j) :
    addrOf addr j + (args[j].str.length + 1) ≤ addrOf addr i := by
  induction j with
  | zero => exact absurd hij (Nat.not_lt_zero i)
  | succ j ih =>
    obtain ⟨hle, haddr, -, -, -⟩ := h.pushed hj
    rw [pushedFrom] at hle haddr
    have hstep : addrOf addr (j + 1) + (args[j + 1].str.length + 1) ≤
        addrOf addr j := by
      omega
    rcases Nat.lt_or_eq_of_le (Nat.le_of_lt_succ hij) with hlt | rfl
    · have := ih (by omega) hlt
      omega
    · exact hstep

/-- **The block is there for the user**, if the user sees the stack page and
the strings have no zero bytes. -/
theorem ArgBlock.stackBlock
    (h : ArgBlock km pt base (toArgv args) argc sp addr)
    (hview : ∀ va, base ≤ va → va < base + PGSIZE →
      userByte s va = imageByte km pt va)
    (hsz : s.p.sz = base + PGSIZE)
    (hstrs : ∀ a ∈ args, ∀ b ∈ a.str, b ≠ 0) :
    StackBlock s sp (args.map Arg.str) (addrOf addr) := by
  have hargc := h.length
  have hbase := h.base_le
  obtain ⟨top, htop₀, htop, hfits, hsp, htople⟩ := h.array
  have hfrom : pushedFrom (base + PGSIZE) (addrOf addr) args.length = top := by
    obtain ⟨hlt, -⟩ := h.last
    cases hn : args.length with
    | zero => exact (htop₀ (by omega)).symm
    | succ i =>
      rw [pushedFrom, addrOf_lt (show i < MAXARG by omega)]
      exact (htop ⟨i, by omega⟩ (by dsimp only; omega)).symm
  have hword : ∀ {i x : ℕ}, i ≤ args.length →
      WordAt km pt (sp + 8 * i) x → UserWord s (sp + 8 * i) x := by
    rintro i x hi ⟨b, hb, hx⟩
    refine ⟨b, fun k hk => ?_, hx⟩
    rw [hview _ (by omega) (by omega), hb k hk]
  refine ⟨?_, ?_, ?_, ⟨h.aligned, ?_⟩, ⟨by omega, by omega⟩, ⟨?_, ?_⟩,
    ⟨?_, ?_⟩, ?_, ?_⟩
  · intro i hi
    rw [List.length_map] at hi
    obtain ⟨hlt, -⟩ := h.last
    rw [addrOf_lt (show i < MAXARG by omega)]
    exact hword (Nat.le_of_lt hi)
      (h.pointer ⟨i, by omega⟩ (by dsimp only; omega))
  · rw [List.length_map]
    exact hword (Nat.le_refl _) (hargc ▸ h.null)
  · intro i hi
    rw [List.length_map] at hi
    obtain ⟨hle, haddr, hlow, hfrom, hbytes⟩ := h.pushed hi
    have hbyte : ∀ k ≤ args[i].str.length, userByte s (addrOf addr i + k) =
        some ((args[i].str ++ [0]).getD k 0) := by
      intro k hk
      rw [hview _ (by omega) (by omega), hbytes k hk]
    rw [List.getElem_map]
    refine ⟨fun k hk => ?_, hstrs _ (List.getElem_mem hi), ?_⟩
    · rw [hbyte k (Nat.le_of_lt hk), List.getD_append _ _ _ _ hk,
        List.getElem?_eq_getElem hk, List.getD_eq_getElem _ _ hk]
    · rw [hbyte _ (Nat.le_refl _),
        List.getD_append_right _ _ _ _ (Nat.le_refl _)]
      simp
  · intro i hi
    rw [List.length_map] at hi
    rw [(h.pushed hi).2.1]
    exact Nat.mul_mod_left ..
  · rw [List.length_map, hsz]
    omega
  · intro i hi
    rw [List.length_map] at hi
    obtain ⟨hle, haddr, -, hfrom, -⟩ := h.pushed hi
    rw [List.getElem_map, hsz]
    omega
  · intro i hi
    rw [List.length_map] at hi ⊢
    exact (h.pushed hi).2.2.1
  · intro i j hj hij
    rw [List.length_map] at hj
    rw [List.getElem_map]
    exact h.apart hj hij
  · intro i hi
    rw [List.length_map] at hi
    obtain ⟨hle, haddr, -, -, -⟩ := h.pushed hi
    rw [List.getElem_map, hsz]
    exact ⟨hle, haddr⟩
  · rw [List.length_map, hsz, hfrom]
    exact hargc ▸ ⟨hfits, hsp⟩

end Block

/-! ## The round trip -/

/-- What the new program finds: `sp`, also in `a1`, and the block there. -/
structure NewStack (s : State) (strs : List (List UInt8)) : Prop where
  a1 : trapframeWord s trapframeA1 = trapframeWord s trapframeSp
  block : ∃ addr, StackBlock s (trapframeWord s trapframeSp) strs addr

/-- Giving back the pages of the arguments touches nothing else. -/
theorem freeArgs_same {g : Frame} : ∀ {args : List Arg} {km : Kmem},
    freeArgs km args = .ok km' → g ∉ argPages args → km.SameIn km' g := by
  intro args
  induction args with
  | nil =>
    intro km hfree _
    cases hfree
    exact fun _ _ => rfl
  | cons a args ih =>
    intro km hfree hg
    unfold freeArgs at hfree
    rw [List.foldlM_cons] at hfree
    obtain ⟨km₁, hkfree, hfree⟩ := bind_ok_iff.mp hfree
    rw [lift_eq_ok] at hkfree
    unfold argPages at hg
    rw [List.map_cons, Multiset.mem_coe, List.mem_cons, not_or] at hg
    exact (kfree_sameIn hkfree (Ne.symm hg.1)).trans (ih hfree hg.2)

theorem trapframeWord_congr {s' : State} {off : ℕ}
    (hp : s'.p.trapframe = s.p.trapframe)
    (hsame : s.kmem.SameIn s'.kmem s.p.trapframe) (hoff : off + 8 ≤ PGSIZE) :
    trapframeWord s' off = trapframeWord s off := by
  unfold trapframeWord
  rw [hp]
  apply leNat_congr
  intro k _ hk
  rw [Nat.add_assoc]
  exact hsame (off + k) (by omega)

/-- **The argument block round-trips.** Whatever the user passes to `exec`, no
index of the arrays is out of range; and when `exec` succeeds it returns the
number of the strings in the user's array, and the new program finds these
strings on its stack. -/
theorem exec_args_round_trip (h : Accounted pool rest c.st)
    (upath uargv : UInt64)
    (namei : List UInt8 → Option (InodeId × Inode)) :
    sysExec c upath uargv namei ≠ .error .range ∧
    ∀ c' argc, sysExec c upath uargv namei = .ok (c', some argc) →
      ∃ strs, UserArgv c.st uargv.toNat strs ∧ argc = strs.length ∧
        NewStack c'.st strs := by
  constructor
  · exact Meets.ne_error (sysExec_onlyPanics h upath uargv namei) (by simp)
  intro c' argc hcall
  obtain ⟨s, args, path, c₁, km, hheld, hread, hnull, hargv, hexec, hfree,
    rfl⟩ := sysExec_fetched h hcall
  obtain ⟨c₂, entry, pt, sz, sp, hready, hcommit, hbytes⟩ :=
    kexec_done (c := { c with st := s }) hheld.accounted.ledger hargv hexec
  obtain ⟨_, _, r, _, _, -, -, -, -, -, hstack⟩ := hready.loaded
  obtain ⟨addr, hblock⟩ := hstack.block
  have hsize := hstack.size
  have hsz := hready.image.sz_le
  have htrap := RAM_lt_TRAPFRAME
  have hmax := TRAPFRAME_lt_MAXVA
  have hpage : PGSIZE = 4096 := rfl
  have hp : c₁.st.p = { s.p with pagetable := pt, sz := sz } := by
    rw [hcommit.p, hready.p]
  -- the pages of the arguments are neither the image nor the trapframe
  have hnodup := hready.image.ledger.used_nodup
  have himage : ∀ f ∈ pt.owned, c₁.st.kmem.SameIn km f := by
    intro f hf
    refine freeArgs_same hfree fun harg => ?_
    rw [Multiset.nodup_add] at hnodup
    refine Multiset.disjoint_left.mp hnodup.2.2 hf (Multiset.mem_add.mpr ?_)
    exact Or.inr (Multiset.mem_cons_of_mem (Multiset.mem_add.mpr (Or.inl harg)))
  have hframe : c₁.st.kmem.SameIn km s.p.trapframe := by
    refine freeArgs_same hfree fun harg => ?_
    have hused := (Multiset.nodup_add.mp (Multiset.nodup_add.mp hnodup).2.1).2.1
    exact (Multiset.nodup_cons.mp hused).1 (Multiset.mem_add.mpr (Or.inl harg))
  have hword : ∀ off, off + 8 ≤ PGSIZE →
      trapframeWord (c₁.setKmem km).st off = trapframeWord c₁.st off := by
    intro off hoff
    refine trapframeWord_congr rfl ?_ hoff
    rw [hp]
    exact hframe
  have hview : ∀ va, pgroundup r.sz + PGSIZE ≤ va → va < sz →
      userByte (c₁.setKmem km).st va = imageByte c₂.st.kmem pt va := by
    intro va hlo hhi
    obtain ⟨l, hl, hu, -⟩ := hstack.stack va hlo hhi
    rw [← hbytes va (by omega), userByte, if_pos (show va < MAXVA by omega)]
    have hpt : (c₁.setKmem km).st.p.pagetable = pt := by
      show c₁.st.p.pagetable = pt
      rw [hp]
    rw [hpt, imageByte, hl]
    dsimp only [Option.map_some]
    rw [if_pos hu]
    exact congrArg some (himage l.frame (PageTable.mem_owned (by omega) hl)
      _ (Nat.mod_lt _ (by decide)))
  refine ⟨args.map Arg.str, ⟨?_, ?_⟩, ?_, ⟨?_, addrOf addr, ?_⟩⟩
  · intro i hi
    rw [List.length_map] at hi
    rw [List.getElem_map]
    exact (hread.string i hi).2
  · rw [List.length_map]
    exact hnull
  · rw [List.length_map]
    exact hblock.length
  · rw [hword _ (by decide), hword _ (by decide), hcommit.a1, hcommit.pointer]
  · rw [hword _ (by decide), hcommit.pointer]
    refine hblock.stackBlock (fun va hlo hhi => hview va hlo (by omega)) ?_ ?_
    · show c₁.st.p.sz = _
      rw [hp]
      dsimp only
      omega
    · intro a ha
      obtain ⟨i, hi, rfl⟩ := List.getElem_of_mem ha
      obtain ⟨-, a, -, -, hstr⟩ := hread.string i hi
      exact hstr.ne_stop

/-! ### A program with two arguments -/

theorem bootTable_trap {va : ℕ} (hva : va < MAXVA) (htrap : TRAPFRAME ≤ va) :
    ∃ l, bootTable.leaf va = some l ∧ l.perm.u = false := by
  rw [← PageTable.leaf_pgrounddown]
  have hcases : pgrounddown va = TRAPFRAME ∨ pgrounddown va = TRAMPOLINE := by
    unfold pgrounddown TRAPFRAME TRAMPOLINE MAXVA PGSIZE at *
    omega
  rcases hcases with hpage | hpage
  · rw [hpage]
    exact ⟨⟨103, { r := true, w := true }⟩, by decide +kernel, rfl⟩
  · rw [hpage]
    exact ⟨⟨trampolineFrame, { r := true, x := true }⟩, by decide +kernel, rfl⟩

/-- A process after a fault on its first page. -/
def argFault : State :=
  match vmfaultHeap (bootState argFree rwFile (tinyFile 0)) 0 with
  | .ok (s, _) => s
  | .error _ => bootState argFree rwFile (tinyFile 0)

/-- It wrote the path "a", an array of two pointers and the strings "hi" and
"yo". -/
def argCaller : Caller where
  st := { argFault with
    kmem := argFault.kmem.memmove (walkaddr argFault.p.pagetable 0) (fun k =>
      ([97, 0, 0, 0, 0, 0, 0, 0, 32, 0, 0, 0, 0, 0, 0, 0,
        35, 0, 0, 0, 0, 0, 0, 0, 0, 0, 0, 0, 0, 0, 0, 0,
        104, 105, 0, 121, 111, 0] : List UInt8).getD k 0) 38 }
  name := []

theorem Accounted.stored (h : Accounted pool rest s) (a : ℕ) (src : ℕ → UInt8)
    (n : ℕ) :
    Accounted pool rest { s with kmem := s.kmem.memmove a src n } :=
  ⟨h.ledger.congr rfl, h.trap⟩

theorem argCaller_accounted : Accounted
    ((argFree ++ (bootTable.frames ++ [103]) : List Frame) : Multiset Frame) 0
    argCaller.st := by
  have hboot : Accounted
      ((argFree ++ (bootTable.frames ++ [103]) : List Frame) : Multiset Frame)
      0 (bootState argFree rwFile (tinyFile 0)) :=
    ⟨bootState_ledger rwFile (tinyFile 0) (by decide +kernel)
      (by decide +kernel), fun _ => bootTable_trap⟩
  have hfault : Accounted
      ((argFree ++ (bootTable.frames ++ [103]) : List Frame) : Multiset Frame)
      0 argFault := by
    unfold argFault
    split
    · rename_i hcall
      rcases hboot.vmfaultHeap rfl (show 0 < PGSIZE by decide) with
        ⟨-, herr⟩ | ⟨_, _, hcall', hfault⟩
      · cases herr.symm.trans hcall
      · cases hcall.symm.trans hcall'
        exact hfault.accounted
    · exact hboot
  exact hfault.stored _ _ _

/-- `exec("a", ["hi", "yo"])`. -/
theorem exec_args_round_trip_hi : ∃ c' strs,
    sysExec argCaller 0 8 (fun _ => some (0, tinyFile 0)) = .ok (c', some 2) ∧
    UserArgv argCaller.st 8 strs ∧ 2 = strs.length ∧ NewStack c'.st strs := by
  obtain ⟨⟨c', ret⟩, hcall, hret⟩ := exists_ok_of_any (show ((sysExec
    argCaller 0 8 (fun _ => some (0, tinyFile 0))).toOption.any
      fun r : Caller × Option ℕ => decide (r.2 = some 2)) = true by
        decide +kernel)
  cases of_decide_eq_true hret
  obtain ⟨strs, hstrs⟩ := (exec_args_round_trip argCaller_accounted 0 8
    fun _ => some (0, tinyFile 0)).2 c' 2 hcall
  exact ⟨c', strs, hcall, hstrs⟩

end Xv6.Exec
