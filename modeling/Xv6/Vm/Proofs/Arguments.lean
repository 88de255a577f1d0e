import Xv6.Vm.Proofs.SysExec

/-!
# What `exec` passes to the program

The arguments as the new program finds them, and when there is room for them.
-/

namespace Xv6.Vm

open Prog (execWp wp_seq wp)

variable {T O : Multiset Nat} {w w' : KWorld} {t : PageTable} {sz trampoline tf i : Nat}
  {qs : List Nat}
variable {argv : List (List (BitVec 8))}

theorem Strings.get {hi lo : Nat} (h : Strings w t hi argv qs lo)
    (hi' : i < argv.length) : lo ≤ qs.getD i 0 ∧ qs.getD i 0 + (argv.getD i []).length + 1 ≤ hi ∧
      HasString w t (qs.getD i 0) (argv.getD i []) := by
  induction argv generalizing hi qs i with
  | nil => exact absurd hi' (Nat.not_lt_zero i)
  | cons a argv ih =>
    cases qs with
    | nil => exact h.elim
    | cons q qs =>
      obtain ⟨hq, hs, hrest⟩ := h
      cases i with
      | zero =>
        obtain ⟨-, hle⟩ := hrest.keep fun _ _ _ => rfl
        exact ⟨hle, hq, hs⟩
      | succ i =>
        obtain ⟨hl, hu, hstr⟩ := ih hrest (Nat.lt_of_succ_lt_succ hi')
        simp only [List.getD_cons_succ]
        exact ⟨hl, by omega, hstr⟩

theorem Strings.apart {hi lo : Nat} (h : Strings w t hi argv qs lo) {j : Nat} (hij : i < j)
    (hj : j < argv.length) : qs.getD j 0 + (argv.getD j []).length + 1 ≤ qs.getD i 0 := by
  induction argv generalizing hi qs i j with
  | nil => exact absurd hj (Nat.not_lt_zero j)
  | cons a argv ih =>
    cases qs with
    | nil => exact h.elim
    | cons q qs =>
      obtain ⟨-, -, hrest⟩ := h
      obtain ⟨j, rfl⟩ : ∃ k, j = k + 1 := ⟨j - 1, by omega⟩
      cases i with
      | zero => exact (hrest.get (Nat.lt_of_succ_lt_succ hj)).2.1
      | succ i => exact ih hrest (Nat.lt_of_succ_lt_succ hij) (Nat.lt_of_succ_lt_succ hj)

/-- The arguments in the memory of the new program, whose stack pointer is `sp`. -/
structure Arguments (w : KWorld) (t : PageTable) (sz : Nat) (argv : List (List (BitVec 8))) (sp : Nat) :
    Prop where
  aligned : sp % 16 = 0
  top : sz % PGSIZE = 0 ∧ (t.leaf (sz / PGSIZE - 1)).flags = userFlags
  guard : (t.leaf (sz / PGSIZE - 2)).has PTE_U = false
  inside : sz - PGSIZE ≤ sp
  pointers : ∃ qs : List Nat, qs.length = argv.length ∧
    -- the array, with the null pointer at its end
    (∀ i ≤ argv.length, userUint w t 8 (sp + 8 * i) = (qs ++ [0]).getD i 0) ∧
    -- the strings, in the page and behind the array
    (∀ i < argv.length, HasString w t (qs.getD i 0) (argv.getD i []) ∧
      sp + 8 * (argv.length + 1) ≤ qs.getD i 0 ∧
      qs.getD i 0 + (argv.getD i []).length + 1 ≤ sz) ∧
    ∀ i j, i < j → j < argv.length → qs.getD j 0 + (argv.getD j []).length + 1 ≤ qs.getD i 0

theorem Passed.arguments {sp : Nat} (h : Passed w t sz argv sp) (hst : Stacked trampoline tf T O w t sz) :
    Arguments w t sz argv sp := by
  obtain ⟨haligned, hinside, qs, hqs, hptr, lo, hlo, hstr⟩ := h
  have hmod : sz % PGSIZE = 0 := by
    obtain ⟨n, hn⟩ := hst.size
    rw [hn]
    exact page_mod _
  refine ⟨haligned, ⟨hmod, hst.top⟩, hst.guard, hinside, qs, hqs, hptr, fun i hi => ?_,
    fun i j hij hj => hstr.apart hij hj⟩
  obtain ⟨hl, hu, hs⟩ := hstr.get hi
  exact ⟨hs, hlo.trans hl, hu⟩

theorem loadImage_run (trampoline tf : Nat) (path : List (BitVec 8)) (hacc : Acc T w O)
    (hlock : w.locked = false) :
    ∃ res w1, (loadImage trampoline tf path).run KOp.exec w = (some res, w1) ∧
      (res = none ∨ ∃ t sz file elf, res = some (t, sz, elf.entry) ∧ w.files path = some file ∧
        Loaded trampoline tf T O file w1 t sz elf ∧ Left T w w1) := by
  have hwp : (loadImage trampoline tf path).wp vmWp (fun res w1 => res = none ∨
      ∃ t sz file elf, res = some (t, sz, elf.entry) ∧ w.files path = some file ∧
        Loaded trampoline tf T O file w1 t sz elf ∧ Left T w w1) w :=
    wp_loadImage hacc hlock (fun _ _ _ => .inl rfl)
      fun t sz w' file elf hf hl hleft => .inr ⟨t, sz, file, elf, rfl, hf, hl, hleft⟩
  exact Prog.run_of_wp hwp

theorem exec_run {p : Process} {path : List (BitVec 8)} (htf : p.trapframe = some tf)
    {r : Option (PageTable × Nat × Nat)} {w1 : KWorld}
    (hload : (loadImage trampoline tf path).run KOp.exec w = (some r, w1)) :
    (exec trampoline p path argv).run KOp.exec w = match r with
      | none => (some (-1, p), w1)
      | some (t, sz, entry) => (commitImage p tf path argv t sz entry).run KOp.exec w1 := by
  rw [exec, htf]
  simp only [deref, Prog.pure_eq, Prog.pure_bind]
  rw [Prog.run_bind_some hload]
  cases r with
  | none | some x => rfl

variable {file : List (BitVec 8)}

/-! ## Memory that does not run out -/

/-- One operation, where a run stops at a `kalloc` that fails. -/
def KOp.execPlenty : ∀ γ, KOp γ → KWorld → Option γ × KWorld
  | _, .kalloc, w => if w.oom w.tick ∨ w.free = [] then (none, w) else KOp.exec _ .kalloc w
  | _, o, w => KOp.exec _ o w

/-- No `kalloc` of the program fails. -/
def Enough {α : Type} (p : KProg α) (w : KWorld) : Prop := (p.run KOp.execPlenty w).1 ≠ none

theorem execPlenty_some {γ : Type} {o : KOp γ} {b : γ} (h : KOp.execPlenty γ o w = (some b, w')) :
    KOp.exec γ o w = (some b, w') := by
  cases o with
  | kalloc =>
    rw [KOp.execPlenty] at h
    split_ifs at h
    · cases h
    · exact h
  | _ => exact h

theorem run_of_plenty {α : Type} {p : KProg α} {a : α} (h : p.run KOp.execPlenty w = (some a, w')) :
    p.run KOp.exec w = (some a, w') := by
  induction p generalizing w with
  | pure b => exact h
  | op o k ih =>
    rw [Prog.run_op] at h ⊢
    rcases hop : KOp.execPlenty _ o w with ⟨_ | b, w1⟩
    · rw [hop] at h
      cases h
    · rw [hop] at h
      rw [execPlenty_some hop]
      exact ih b h

/-- Execution that may stop, and does at a `kalloc` that fails. -/
abbrev plentyWp := execWp KOp.execPlenty fun _ => True

theorem plenty_op {γ α : Type} {o : KOp γ} {b : γ} {k : γ → KProg α} {Q : α → KWorld → Prop}
    (h : KOp.execPlenty γ o w = (some b, w')) (hk : (k b).wp plentyWp Q w') :
    (Prog.lift o >>= k).wp plentyWp Q w := by
  refine wp_seq ?_
  show plentyWp γ o _ w
  unfold plentyWp execWp
  rw [h]
  exact hk

theorem plenty_kalloc {Q : Option Nat → KWorld → Prop} (h : ∀ p w', w'.file = w.file → Q (some p) w') :
    plentyWp _ .kalloc Q w := by
  by_cases hfail : w.oom w.tick ∨ w.free = []
  · have hop : KOp.execPlenty _ .kalloc w = (none, w) := if_pos hfail
    unfold plentyWp execWp
    rw [hop]
    trivial
  · cases hfree : w.free with
    | nil => exact absurd (.inr hfree) hfail
    | cons p ps =>
      have hop : KOp.execPlenty _ .kalloc w = (some (some p), { w with
          free := ps, data := Function.update w.data p (fillPage 5), tick := w.tick + 1 }) := by
        rw [KOp.execPlenty, if_neg hfail, KOp.exec, if_neg fun h => hfail (.inl h), hfree]
      unfold plentyWp execWp
      rw [hop]
      exact h p _ rfl

theorem plenty_newTable {Q : Option Nat → KWorld → Prop} (h : ∀ p w', w'.file = w.file → Q (some p) w') :
    (newTable true).wp plentyWp Q w :=
  plenty_kalloc fun p _ hw' => h p _ hw'

section
variable {Q : Option PageTable → KWorld → Prop} (h : ∀ t' w', w'.file = w.file → Q (some t') w')
include h

theorem plenty_table1 : (table1 t i true).wp plentyWp Q w := by
  rw [table1]
  cases t.dir1 i with
  | some _ => exact h t w rfl
  | none => exact wp_seq (plenty_newTable fun _ _ => h _ _)

theorem plenty_table0 : (table0 t i true).wp plentyWp Q w := by
  rw [table0]
  cases t.dir0 i with
  | some _ => exact h t w rfl
  | none => exact wp_seq (plenty_newTable fun _ _ => h _ _)

end

theorem plenty_walk {va : Nat} {Q : Option Nat × PageTable → KWorld → Prop}
    (h : ∀ v t' w', w'.file = w.file → Q (some v, t') w') : (walk t va true).wp plentyWp Q w := by
  rw [walk]
  split_ifs
  · trivial
  · refine wp_seq (plenty_table1 fun t1 w1 h1 => ?_)
    exact wp_seq (plenty_table0 fun t2 w2 h2 => h _ _ _ (h2.trans h1))

section
variable {Q : Bool × PageTable → KWorld → Prop} (h : ∀ t' w', w'.file = w.file → Q (true, t') w')
include h

theorem plenty_mappages (va size ppn : Nat) (perm : BitVec 10) :
    (mappages t va size ppn perm).wp plentyWp Q w := by
  rw [mappages]
  generalize (PGROUNDDOWN (va + size - 1) - PGROUNDDOWN va) / PGSIZE + 1 = n
  generalize PGROUNDDOWN va = a
  induction n generalizing t w a ppn with
  | zero => exact h t w rfl
  | succ n ih =>
    rw [mappagesLoop]
    refine wp_seq (plenty_walk fun v t1 w1 h1 => ?_)
    dsimp only
    split_ifs
    · trivial
    · exact ih (fun t' w' hw' => h t' w' (hw'.trans h1)) _ _

theorem plenty_uvmallocLoop (oldsz n a : Nat) : (uvmallocLoop oldsz n t a).wp plentyWp Q w := by
  induction n generalizing t w a with
  | zero => exact h t w rfl
  | succ n ih =>
    rw [uvmallocLoop, Prog.lift_bind, Prog.wp_op]
    refine plenty_kalloc fun p w1 h1 => ?_
    change wp plentyWp (mappages t a PGSIZE p _ >>= _) Q _
    refine wp_seq (plenty_mappages (fun t2 w2 h2 => ?_) ..)
    exact ih (fun t' w' hw' => h t' w' (hw'.trans (h2.trans h1))) _

end

theorem plenty_uvmalloc {oldsz newsz : Nat} {Q : Nat × PageTable → KWorld → Prop}
    (h : ∀ t' w', w'.file = w.file → Q (max oldsz newsz, t') w') :
    (uvmalloc t oldsz newsz).wp plentyWp Q w := by
  rw [uvmalloc]
  split_ifs with hlt
  · have := h t w rfl
    rwa [max_eq_left hlt.le] at this
  · refine wp_seq (plenty_uvmallocLoop (fun t' w' hw' => ?_) ..)
    have := h t' w' hw'
    rwa [max_eq_right (not_lt.mp hlt)] at this

theorem plenty_procPagetable {Q : Option PageTable → KWorld → Prop}
    (h : ∀ t' w', w'.file = w.file → Q (some t') w') :
    (procPagetable trampoline tf).wp plentyWp Q w := by
  rw [procPagetable, uvmcreate]
  refine wp_seq (wp_seq (plenty_kalloc fun p w1 h1 => ?_))
  change wp plentyWp (mappages (.empty p) TRAMPOLINE PGSIZE trampoline _ >>= _) Q _
  refine wp_seq (plenty_mappages (fun t2 w2 h2 => ?_) ..)
  refine wp_seq (plenty_mappages (fun t3 w3 h3 => ?_) ..)
  exact h t3 w3 (h3.trans (h2.trans h1))

/-- The segment is in the file, at an aligned address, and is not empty at address 0. -/
abbrev Loadable (file : List (BitVec 8)) (ph : Proghdr) : Prop :=
  ph.filesz ≤ ph.memsz ∧ ph.filesz < 2 ^ 32 ∧ ph.vaddr + ph.memsz < 2 ^ 64 ∧ 0 < ph.vaddr + ph.memsz ∧
    ph.vaddr % PGSIZE = 0 ∧
    ∀ k < pages ph.filesz, (ph.chunk file k).length = min PGSIZE (ph.filesz - k * PGSIZE)

/-- The file is one of a program: it has a header and program headers, and the segments to load. -/
structure Valid (file : List (BitVec 8)) (elf : Elfhdr) : Prop where
  header : Header file elf
  segments : ∀ ph ∈ loads file elf.phnum (BitVec.ofNat 32 elf.phoff), Loadable file ph

theorem plenty_walkaddr {va : Nat} {Q : Option Nat → KWorld → Prop} (h : ∀ r, Q r w) :
    (walkaddr t va).wp plentyWp Q w := by
  rw [walkaddr, walk]
  split_ifs
  · exact h none
  refine wp_seq (wp_seq ?_)
  unfold table1
  cases t.dir1 (PX 2 va) with
  | none => exact h none
  | some _ =>
    refine wp_seq (p := table0 ..) ?_
    unfold table0
    cases t.dir0 (512 * PX 2 va + PX 1 va) with
    | none => exact h none
    | some _ =>
      show wp _ (if _ then _ else _) _ _
      split_ifs <;> exact h _

theorem plenty_loadsegLoop {va fsz : Nat} {off : BitVec 32} {Q : Bool → KWorld → Prop}
    (hfile : w.file = file) (h : ∀ w', w'.file = file → Q true w') {n k : Nat}
    (hread : ∀ j, k ≤ j → j < k + n → (chunk file off fsz j).length = min PGSIZE (fsz - j * PGSIZE)) :
    (loadsegLoop t va off fsz n (k * PGSIZE)).wp plentyWp Q w := by
  induction n generalizing w k with
  | zero => exact h w hfile
  | succ n ih =>
    rw [loadsegLoop]
    refine wp_seq (plenty_walkaddr fun r => ?_)
    cases r with
    | none => trivial
    | some pa =>
      have hmin : (if fsz - k * PGSIZE < PGSIZE then fsz - k * PGSIZE else PGSIZE) =
          min PGSIZE (fsz - k * PGSIZE) := by
        split_ifs <;> omega
      have hlen := hread k le_rfl (by omega)
      rw [chunk] at hlen
      dsimp only
      rw [hmin]
      refine plenty_op rfl (plenty_op rfl (plenty_op rfl ?_))
      rw [hfile, if_neg (not_not.mpr hlen), ← Nat.succ_mul]
      exact ih rfl fun j hj hj' => hread j (by omega) (by omega)

theorem plenty_loadProgram {n : Nat} {off : BitVec 32} {Q : Bool × PageTable × Nat → KWorld → Prop}
    (hfile : w.file = file) (h : ∀ t' sz' w', w'.file = file → Q (true, t', sz') w')
    (hheaders : ∀ l ∈ headers file n off, l.length = phSize)
    (hload : ∀ ph ∈ loads file n off, Loadable file ph) :
    (loadProgram n off t sz).wp plentyWp Q w := by
  induction n generalizing w t sz off with
  | zero => exact h t sz w hfile
  | succ n ih =>
    rw [loadProgram]
    rw [headers, List.forall_mem_cons] at hheaders
    rw [loads, headers, List.map_cons] at hload
    refine plenty_op rfl ?_
    rw [hfile, if_neg (not_not.mpr hheaders.1)]
    by_cases htype : (Proghdr.ofBytes (readBytes file off (BitVec.ofNat 32 phSize))).type = ELF_PROG_LOAD
    · rw [if_neg (not_not.mpr htype)]
      rw [List.filter_cons_of_pos (by simpa using htype), List.forall_mem_cons] at hload
      generalize Proghdr.ofBytes (readBytes file off (BitVec.ofNat 32 phSize)) = ph at hload ⊢
      obtain ⟨⟨hsz, hfsz, hend, hpos, hal, hread⟩, hload⟩ := hload
      have hmod : (ph.vaddr + ph.memsz) % 2 ^ 64 = ph.vaddr + ph.memsz := Nat.mod_eq_of_lt hend
      rw [if_neg (by omega), hmod, if_neg (by omega)]
      refine wp_seq (plenty_uvmalloc fun t1 w1 h1 => ?_)
      dsimp only
      rw [if_neg (by omega), if_neg (by omega), loadseg, if_neg (by omega), Nat.mod_eq_of_lt hfsz]
      refine wp_seq ?_
      rw [← Nat.zero_mul PGSIZE]
      exact plenty_loadsegLoop (h1.trans hfile) (fun w' hw' => ih hw' hheaders.2 hload)
        fun j _ hj => hread j (by rwa [Nat.zero_add] at hj)
    · rw [if_pos htype]
      rw [List.filter_cons_of_neg (by simpa using htype)] at hload
      exact ih hfile hheaders.2 hload

theorem plenty_loadImage {path : List (BitVec 8)} {elf : Elfhdr} (hfile : w.files path = some file)
    (hv : Valid file elf) :
    (loadImage trampoline tf path).wp plentyWp (fun r _ => r ≠ none) w := by
  have hop : KOp.execPlenty _ (.namei path) { w with ops := w.ops + 1 } = (some true,
      { w with ops := w.ops + 1, file := file, refs := w.refs + 1 }) := by
    show KOp.exec _ (.namei path) _ = _
    rw [KOp.exec, hfile]
  have hh := hv.header
  rw [loadImage]
  refine plenty_op rfl (plenty_op hop (plenty_op rfl (plenty_op rfl ?_)))
  dsimp only
  rw [← hh.read, if_neg (not_or.mpr ⟨not_not.mpr hh.length, not_not.mpr hh.magic⟩)]
  refine wp_seq (plenty_procPagetable fun t1 w1 h1 => ?_)
  refine wp_seq (plenty_loadProgram h1 (fun t2 sz2 w2 h2 => ?_) hh.headers hv.segments)
  refine plenty_op rfl (plenty_op rfl (wp_seq ?_))
  rw [allocStack]
  refine wp_seq (plenty_uvmalloc fun t3 w3 _ => ?_)
  have hpos : ¬ max (PGROUNDUP sz2) (PGROUNDUP sz2 + 2 * PGSIZE) = 0 := by
    show ¬ max _ (_ + 2 * 4096) = 0
    omega
  generalize max (PGROUNDUP sz2) (PGROUNDUP sz2 + 2 * PGSIZE) = sz3 at hpos ⊢
  dsimp only
  rw [if_neg hpos]
  generalize sz3 - 2 * PGSIZE = va
  refine wp_seq (Prog.wp_of_forall fun t4 w4 => ?_)
  exact Option.some_ne_none _

theorem loadImage_of_valid {path : List (BitVec 8)} {elf : Elfhdr} (hfile : w.files path = some file)
    (hv : Valid file elf) (hmem : Enough (loadImage trampoline tf path) w) (w1 : KWorld) :
    (loadImage trampoline tf path).run KOp.exec w ≠ (some none, w1) := by
  have hwp : (loadImage trampoline tf path).wp _ _ w := plenty_loadImage hfile hv
  rw [Prog.wp_execWp] at hwp
  obtain ⟨r, hr⟩ := Option.ne_none_iff_exists'.mp hmem
  intro h
  have hrun := run_of_plenty (Prod.ext hr rfl)
  rw [h] at hrun
  cases hrun
  exact hwp.1 none hr rfl

/-- When `exec` succeeds the arguments are on the stack of the new program. For a file that is a program, and
with memory to load it, it fails exactly when they do not fit. -/
theorem exec_arguments {p : Process} {old : PageTable} {path : List (BitVec 8)}
    (hpt : p.pagetable = some old) (htf : p.trapframe = some tf) (hfull : Full trampoline tf old p.sz)
    (hacc : Acc T w (old.nodes + (old.frames 0 (pages p.sz) + (tf ::ₘ O)))) (hlock : w.locked = false)
    (hargv : ∀ a ∈ argv, a.length < PGSIZE) :
    ∃ r p' w', (exec trampoline p path argv).run KOp.exec w = (some (r, p'), w') ∧
      (r ≠ -1 → r = argv.length ∧ ∃ t, p'.pagetable = some t ∧
        ∃ sp, (w'.data tf).uint 8 tfA1 = sp ∧ (w'.data tf).uint 8 tfSp = sp ∧
          Arguments w' t p'.sz argv sp) ∧
      ((∃ file elf, w.files path = some file ∧ Valid file elf) → Enough (loadImage trampoline tf path) w →
        (r = -1 ↔ ¬ (argv.length ≤ MAXARG ∧ argBytes argv ≤ PGSIZE))) := by
  obtain ⟨res, w1, hload, hres⟩ := loadImage_run trampoline tf path hacc.free_part hlock
  rcases hres with rfl | ⟨t, sz, file, elf, rfl, hfile, hloaded, hleft⟩
  · refine ⟨-1, p, w1, exec_run htf hload, fun h => absurd rfl h, fun ⟨file, elf, hfile, hv⟩ hmem => ?_⟩
    exact absurd hload (loadImage_of_valid hfile hv hmem w1)
  · obtain ⟨⟨r, p'⟩, w', hrun, h⟩ := Prog.run_of_wp (wp_commitImage hpt hfull hacc hargv hfile hloaded hleft
      (Q := fun x w' => (x.1 = -1 ∧ ¬ (argv.length ≤ MAXARG ∧ argBytes argv ≤ PGSIZE)) ∨
        (x.1 = argv.length ∧ argv.length ≤ MAXARG ∧ argBytes argv ≤ PGSIZE ∧
          ∃ sp, Executed trampoline tf T O w w' p x.2 path argv file elf t sz sp))
      (fun w' hno _ _ => .inl ⟨rfl, hno⟩)
      fun w' p' sp hmax hfit hex => .inr ⟨rfl, hmax, hfit, sp, hex⟩)
    dsimp only at h
    refine ⟨r, p', w', (exec_run htf hload).trans hrun, ?_, ?_⟩
    · rcases h with ⟨hr, -⟩ | ⟨hr, -, -, sp, hex⟩
      · exact fun h => absurd hr h
      · refine fun _ => ⟨hr, t, by rw [hex.proc], sp, hex.regs.1, hex.regs.2.1, ?_⟩
        rw [hex.proc]
        exact hex.passed.arguments hex.stacked
    · rintro - -
      rcases h with ⟨hr, hno⟩ | ⟨hr, hmax, hfit, -⟩
      · exact ⟨fun _ => hno, fun _ => hr⟩
      · refine ⟨fun h => ?_, fun hno => absurd ⟨hmax, hfit⟩ hno⟩
        omega

theorem elfFile_valid : Valid (elfFile 0) (Elfhdr.ofBytes ((elfFile 0).take elfSize)) :=
  ⟨⟨rfl, by decide, by decide, by decide⟩, by decide⟩

/-- An argument of two letters fits. -/
theorem exec_arguments_one : ∃ r p' w', (exec 0x80007 (forkTable.proc 0) [0x61] [[0x62, 0x63]]).run KOp.exec
      (elfWorld 0) = (some (r, p'), w') ∧ r = 1 ∧
    ∃ t sp, p'.pagetable = some t ∧ Arguments w' t p'.sz [[0x62, 0x63]] sp := by
  have hmem : Enough (loadImage 0x80007 0x80206 [0x61]) (elfWorld 0) := by
    have : ((loadImage 0x80007 0x80206 [0x61]).run KOp.execPlenty
        (elfWorld 0)).1.isSome = true := by
      decide +kernel
    exact Option.isSome_iff_ne_none.mp this
  obtain ⟨r, p', w', hrun, hargs, hfail⟩ : ∃ r p' w', (exec 0x80007 (forkTable.proc 0) [0x61]
      [[0x62, 0x63]]).run KOp.exec (elfWorld 0) = (some (r, p'), w') ∧
      (r ≠ -1 → _) ∧ (_ → _ → (r = -1 ↔ _)) :=
    exec_arguments (p := forkTable.proc 0) rfl rfl (fullTable_full 0x80007 0x80206 0x80203).1
      (forkWorld_acc (some (elfFile 0)) fun _ => false) rfl (by decide)
  obtain ⟨hr, t, ht, sp, -, -, ha⟩ := hargs fun hr =>
    (hfail ⟨_, _, rfl, elfFile_valid⟩ hmem).mp hr (by decide)
  exact ⟨r, p', w', hrun, hr, t, sp, ht, ha⟩

end Xv6.Vm
