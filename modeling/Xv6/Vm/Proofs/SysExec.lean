import Xv6.Vm.Proofs.Executing
import Xv6.Vm.Proofs.Forking

/-!
# `sys_exec`

Fetching the arguments takes a page for each; all of them are freed at the end, on every path.
-/

namespace Xv6.Vm

open Multiset (coe_add cons_add singleton_add mem_add)
open Prog (wp_bind wp_op lift_bind pure_bind)

variable {T O B : Multiset Nat} {w w' : KWorld} {t : PageTable} {sz trampoline tf : Nat}

theorem walkaddr_pure (hwf : t.Wf) (va : Nat) : ∃ r, walkaddr t va = Prog.pure r := by
  rw [walkaddr]
  by_cases hva : MAXVA ≤ va
  · rw [if_pos hva]
    exact ⟨none, rfl⟩
  rw [if_neg hva]
  by_cases hdir : t.dir0 (va / PGSIZE / 512) = none
  · rw [walk_missing (not_le.mp hva) hdir]
    exact ⟨none, rfl⟩
  · rw [walk_found hwf (not_le.mp hva) false hdir]
    simp only [pure_bind]
    split_ifs
    exacts [⟨none, rfl⟩, ⟨none, rfl⟩, ⟨_, rfl⟩]

theorem wp_copyin (hwf : t.Wf) (fuel : Nat) : ∀ {a len : Nat}
    {Q : Option (List (BitVec 8)) → KWorld → Prop}, (∀ r, Q r w) → (copyin t fuel a len).wp vmWp Q w := by
  induction fuel with
  | zero => exact fun {a len Q} hQ => hQ _
  | succ fuel ih =>
    intro a len Q hQ
    rw [copyin]
    split_ifs
    · exact hQ _
    · obtain ⟨r, hr⟩ := walkaddr_pure hwf (PGROUNDDOWN a)
      rw [hr]
      cases r with
      | none => exact hQ none
      | some pa =>
        simp only [pure_bind, lift_bind, wp_op, vmWp_page, wp_bind]
        exact ih fun r => hQ _

theorem length_takeWhile_lt {l : List (BitVec 8)} (h : (0 : BitVec 8) ∈ l) :
    (l.takeWhile (· ≠ 0)).length < l.length := by
  induction l with
  | nil => exact absurd h List.not_mem_nil
  | cons c l ih =>
    by_cases hc : c = 0
    · simp [hc]
    · have hl : (0 : BitVec 8) ∈ l := (List.mem_cons.mp h).resolve_left (Ne.symm hc)
      rw [List.takeWhile_cons_of_pos (by simpa using hc), List.length_cons, List.length_cons]
      exact Nat.succ_lt_succ (ih hl)

/-- `copyinstr` reads only, and the string is shorter than the buffer. -/
theorem wp_copyinstr (hwf : t.Wf) (fuel : Nat) : ∀ {a max : Nat}
    {Q : Option (List (BitVec 8)) → KWorld → Prop}, Q none w → (∀ s, s.length < max → Q (some s) w) →
    (copyinstr t fuel a max).wp vmWp Q w := by
  induction fuel with
  | zero => exact fun {a max Q} hnone _ => hnone
  | succ fuel ih =>
    intro a max Q hnone hsome
    rw [copyinstr]
    by_cases hmax : max = 0
    · rw [if_pos hmax]
      exact hnone
    rw [if_neg hmax]
    obtain ⟨r, hr⟩ := walkaddr_pure hwf (PGROUNDDOWN a)
    rw [hr]
    cases r with
    | none => exact hnone
    | some pa =>
      simp only [pure_bind, lift_bind, wp_op, vmWp_page]
      have hlen : ((List.range (min (PGSIZE - a % PGSIZE) max)).map fun i =>
          (w.data pa).byte (a % PGSIZE + i)).length = min (PGSIZE - a % PGSIZE) max := by simp
      have hle : min (PGSIZE - a % PGSIZE) max ≤ max := Nat.min_le_right ..
      generalize (List.range (min (PGSIZE - a % PGSIZE) max)).map
        (fun i => (w.data pa).byte (a % PGSIZE + i)) = l at hlen ⊢
      by_cases hzero : (0 : BitVec 8) ∈ l
      · rw [if_pos hzero]
        exact hsome _ (lt_of_lt_of_le (length_takeWhile_lt hzero) (hlen ▸ hle))
      · rw [if_neg hzero, wp_bind]
        refine ih (by simpa using hnone) fun s hs => ?_
        refine hsome (l ++ s) ?_
        rw [List.length_append]
        omega

theorem wp_fetchaddr (hwf : t.Wf) {a : Nat} {Q : Option Nat → KWorld → Prop} (hQ : ∀ r, Q r w) :
    (fetchaddr t sz a).wp vmWp Q w := by
  rw [fetchaddr]
  split_ifs
  · exact hQ none
  · rw [wp_bind]
    exact wp_copyin hwf 8 fun r => hQ _

def argPages (argv : List (Nat × List (BitVec 8))) : Multiset Nat := (argv.map Prod.fst : List Nat)

variable (argv : List (Nat × List (BitVec 8)))

theorem argPages_append (a : Nat × List (BitVec 8)) :
    argPages (argv ++ [a]) = a.1 ::ₘ argPages argv := by
  rw [argPages, argPages, List.map_append, List.map_singleton, ← coe_add, add_comm]
  rfl

theorem wp_fetchArgs (hwf : t.Wf) {uargv : Nat} (n : Nat) :
    ∀ {w : KWorld} {i : Nat} {argv : List (Nat × List (BitVec 8))}
      {Q : Bool × List (Nat × List (BitVec 8)) → KWorld → Prop}, Acc T w (argPages argv + O) →
      (∀ a ∈ argv, a.2.length < PGSIZE) →
      (∀ ok argv' w', Acc T w' (argPages argv' + O) → Taken w w' →
        (ok = true → argv'.length < argv.length + n ∧ ∀ a ∈ argv', a.2.length < PGSIZE) →
        Q (ok, argv') w') →
      (fetchArgs t sz uargv n i argv).wp vmWp Q w := by
  induction n with
  | zero =>
    intro w i argv Q hacc hargv hQ
    exact hQ false argv w hacc (.refl w) fun h => absurd h (by decide)
  | succ n ih =>
    intro w i argv Q hacc hargv hQ
    have hstop : Q (false, argv) w := hQ false argv w hacc (.refl w) fun h => absurd h (by decide)
    rw [fetchArgs, wp_bind]
    refine wp_fetchaddr hwf fun r => ?_
    cases r with
    | none => exact hstop
    | some uarg =>
      dsimp only
      by_cases hzero : uarg = 0
      · rw [if_pos hzero]
        exact hQ true argv w hacc (.refl w) fun _ => ⟨by omega, hargv⟩
      rw [if_neg hzero, lift_bind]
      refine wp_kalloc hacc (fun w1 ha1 ht1 => hQ false argv w1 ha1 ht1 fun h => absurd h (by decide))
        fun mem w1 ha1 hmem ht1 => ?_
      rw [← cons_add] at ha1
      simp only [wp_bind]
      refine wp_copyinstr hwf PGSIZE ?_ fun s hs => ?_
      · exact hQ false _ w1 (ha1.congr (by rw [argPages_append])) ht1 fun h => absurd h (by decide)
      · refine ih ((ha1.setPage mem _).congr (by rw [argPages_append])) (fun a ha => ?_)
          fun ok argv' w' ha' ht' hok => ?_
        · rcases List.mem_append.mp ha with ha | ha
          · exact hargv a ha
          · rw [List.mem_singleton.mp ha]
            exact hs
        · refine hQ ok argv' w' ha' ((ht1.setPage hmem _).trans ht') fun h => ?_
          obtain ⟨hlen, hall⟩ := hok h
          rw [List.length_append, List.length_singleton] at hlen
          exact ⟨by omega, hall⟩

theorem wp_freeArgs :
    ∀ {w : KWorld} {Q : Unit → KWorld → Prop}, Acc T w (argPages argv + O) →
      (∀ w', Acc T w' O → Moved T w w' → (∀ q ∈ O, w'.data q = w.data q) → Q () w') →
      (Prog.forEach (fun a => (.lift (.kfree a.1) : KProg Unit)) argv).wp vmWp Q w := by
  induction argv with
  | nil =>
    intro w Q hacc hQ
    exact hQ w (hacc.congr (Multiset.zero_add O)) (.refl T w) fun _ _ => rfl
  | cons a argv ih =>
    intro w Q hacc hQ
    have hcons : argPages (a :: argv) = a.1 ::ₘ argPages argv := rfl
    rw [hcons, cons_add] at hacc
    rw [Prog.forEach, lift_bind]
    refine wp_kfree hacc fun w1 ha1 hm1 _ hdata => ?_
    refine ih ha1 fun w' ha' hm' hkeep => hQ w' ha' (hm1.trans hm') fun q hq => ?_
    rw [hkeep q hq]
    refine hdata q fun h => ?_
    have hnd := hacc.owned_nodup
    rw [Multiset.nodup_cons] at hnd
    exact hnd.1 (h ▸ mem_right hq)

theorem Acc.perm (h : Acc T w O) (h' : Acc T w' O) : w'.free.Perm w.free := by
  have := h'.sum.trans h.sum.symm
  exact Multiset.coe_eq_coe.mp (add_right_cancel this)

theorem Unchanged.trans {w'' : KWorld} (h : Unchanged B w w')
    (h' : Unchanged B w' w'') : Unchanged B w w'' := by
  refine ⟨?_, fun q hq => by rw [h'.kept q hq, h.kept q hq]⟩
  have := h'.rest
  rw [h.rest] at this
  exact this

theorem Taken.unchanged (h : Taken w w') (hacc : Acc T w B) : Unchanged B w w' := by
  refine ⟨?_, fun q hq => h.out q (hacc.not_free hq)⟩
  rw [h.rest]

/-- `sys_exec`: what `exec` does, without the pages of the arguments. -/
theorem wp_sysExec {p : Process} {old : PageTable} (hpt : p.pagetable = some old)
    (htf : p.trapframe = some tf) (hfull : Full trampoline tf old p.sz)
    (hacc : Acc T w (old.nodes + (old.frames 0 (pages p.sz) + (tf ::ₘ O)))) (hlock : w.locked = false) :
    (sysExec trampoline p).wp vmWp (fun x w' => (x.1 = -1 → x.2 = p ∧ w'.free.Perm w.free ∧
        Unchanged (old.nodes + (old.frames 0 (pages p.sz) + (tf ::ₘ O))) w w') ∧
      ∃ t', x.2.pagetable = some t' ∧
        Acc T w' (t'.nodes + (t'.frames 0 (pages x.2.sz) + (tf ::ₘ O)))) w := by
  set B := old.nodes + (old.frames 0 (pages p.sz) + (tf ::ₘ O)) with hB
  -- every failure ends like this
  have hgive : ∀ w', Acc T w' B → Unchanged B w w' → ((-1 : Int) = -1 → p = p ∧ w'.free.Perm w.free ∧
      Unchanged B w w') ∧ ∃ t', p.pagetable = some t' ∧
        Acc T w' (t'.nodes + (t'.frames 0 (pages p.sz) + (tf ::ₘ O))) := fun w' ha hu =>
    ⟨fun _ => ⟨rfl, hacc.perm ha, hu⟩, old, hpt, ha⟩
  rw [sysExec, hpt, htf]
  simp only [deref, Prog.pure_eq, pure_bind, lift_bind, wp_op, vmWp_page, wp_bind]
  refine wp_copyinstr hfull.wf MAXPATH (hgive w hacc ⟨rfl, fun _ _ => rfl⟩) fun path _ => ?_
  simp only [wp_bind]
  refine wp_fetchArgs hfull.wf MAXARG (hacc.congr (Multiset.zero_add B).symm)
    (fun a ha => absurd ha List.not_mem_nil) fun ok argv w1 ha1 ht1 hok => ?_
  have hu1 : Unchanged B w w1 := ht1.unchanged hacc
  cases ok with
  | false =>
    simp only [Bool.false_eq_true, if_false, wp_bind]
    refine wp_freeArgs argv ha1 fun w2 ha2 hm2 hkeep => hgive w2 ha2 (hu1.trans ⟨?_, hkeep⟩)
    rw [hm2.rest]
  | true =>
    obtain ⟨-, hall⟩ := hok rfl
    have hlock1 : w1.locked = false := by
      rw [hu1.rest]
      exact hlock
    have hargs : ∀ a ∈ argv.map Prod.snd, a.length < PGSIZE := fun a ha => by
      obtain ⟨x, hx, rfl⟩ := List.mem_map.mp ha
      exact hall x hx
    simp only [if_true, wp_bind]
    refine wp_exec (O := argPages argv + O) hpt htf hfull (ha1.congr ?_) hlock1 hargs
      (fun w2 ha2 hu2 => ?_) fun w2 p' file elf t sz sp hex => ?_
    · rw [hB, ← singleton_add, ← singleton_add]
      abel
    · refine wp_freeArgs argv (ha2.congr ?_) fun w3 ha3 hm3 hkeep =>
        hgive w3 ha3 (hu1.trans (Unchanged.trans ⟨hu2.rest, fun q hq => hu2.kept q ?_⟩ ⟨?_, hkeep⟩))
      · rw [hB, ← singleton_add, ← singleton_add]
        abel
      · rcases mem_add.mp hq with hq | hq
        · exact mem_left hq
        rcases mem_add.mp hq with hq | hq
        · exact mem_right (mem_left hq)
        rcases Multiset.mem_cons.mp hq with rfl | hq
        · exact mem_right (mem_right (Multiset.mem_cons_self ..))
        · exact mem_right (mem_right (Multiset.mem_cons_of_mem (mem_right hq)))
      · rw [hm3.rest]
    · have hproc := hex.proc
      refine wp_freeArgs (O := t.nodes + (t.frames 0 (pages sz) + (tf ::ₘ O))) argv
        (hex.stacked.acc.congr ?_) fun w3 ha3 _ _ => ?_
      · rw [← singleton_add, ← singleton_add]
        abel
      · refine ⟨fun h => ?_, t, by rw [hproc], by rw [hproc]; exact ha3⟩
        omega

/-- A failed `exec`, and a failed `sys_exec`, leaves the process, the pages in use, the file system and the
free pages as they were; `sys_exec` leaves no page of the arguments allocated in any case. -/
theorem exec_failure {p : Process} {old : PageTable} (hpt : p.pagetable = some old)
    (htf : p.trapframe = some tf) (hfull : Full trampoline tf old p.sz)
    (hacc : Acc T w (old.nodes + (old.frames 0 (pages p.sz) + (tf ::ₘ O)))) (hlock : w.locked = false) :
    (∀ (path : List (BitVec 8)) (argv : List (List (BitVec 8))), argv.length < MAXARG →
      (∀ a ∈ argv, a.length < PGSIZE) → ∃ r p' w',
        (exec trampoline p path argv).run KOp.exec w = (some (r, p'), w') ∧
        (r = -1 → p' = p ∧ w'.free.Perm w.free ∧
          Unchanged (old.nodes + (old.frames 0 (pages p.sz) + (tf ::ₘ O))) w w')) ∧
    ∃ r p' w', (sysExec trampoline p).run KOp.exec w = (some (r, p'), w') ∧
      (r = -1 → p' = p ∧ w'.free.Perm w.free ∧
        Unchanged (old.nodes + (old.frames 0 (pages p.sz) + (tf ::ₘ O))) w w') ∧
      ∃ t', p'.pagetable = some t' ∧
        Acc T w' (t'.nodes + (t'.frames 0 (pages p'.sz) + (tf ::ₘ O))) := by
  refine ⟨fun path argv _ hargv => ?_, ?_⟩
  · have hwp : (exec trampoline p path argv).wp vmWp (fun x w' => x.1 = -1 → x.2 = p ∧
        w'.free.Perm w.free ∧
        Unchanged (old.nodes + (old.frames 0 (pages p.sz) + (tf ::ₘ O))) w w') w := by
      refine wp_exec hpt htf hfull hacc hlock hargv (fun w' ha' hu _ => ⟨rfl, hacc.perm ha', hu⟩)
        fun w' p' file elf t sz sp _ h => ?_
      omega
    obtain ⟨⟨r, p'⟩, w', hrun, h⟩ := Prog.run_of_wp hwp
    exact ⟨r, p', w', hrun, h⟩
  · obtain ⟨⟨r, p'⟩, w', hrun, h⟩ := Prog.run_of_wp (wp_sysExec hpt htf hfull hacc hlock)
    exact ⟨r, p', w', hrun, h⟩

/-- A file of one segment of four bytes; `c` is byte 4 of `phoff`, which is 64 otherwise. -/
def elfFile (c : BitVec 8) : List (BitVec 8) :=
  [0x7f, 0x45, 0x4c, 0x46] ++ List.replicate 28 0 ++ [64, 0, 0, 0, c, 0, 0, 0] ++ List.replicate 16 0 ++
    [1, 0] ++ List.replicate 6 0 ++
    -- the program header
    [1, 0, 0, 0] ++ List.replicate 28 0 ++ [4, 0, 0, 0, 0, 0, 0, 0] ++ [8, 0, 0, 0, 0, 0, 0, 0] ++
    List.replicate 8 0

/-- A file and memory for a program. -/
abbrev elfWorld (c : BitVec 8) : KWorld := forkWorld (some (elfFile c)) fun _ => false

/-- The sixth page is not to be had, a table for the segment: `exec` fails. -/
theorem exec_failure_one : ∃ p' w', (exec 0x80007 (forkTable.proc 0) [0x61] [[0x62]]).run KOp.exec
      (forkWorld (some (elfFile 0)) fun k => k == 5) = (some (-1, p'), w') ∧ p' = forkTable.proc 0 ∧
    w'.free.Perm (forkWorld (some (elfFile 0)) fun k => k == 5).free := by
  have hfail : ((exec 0x80007 (forkTable.proc 0) [0x61] [[0x62]]).run KOp.exec
      (forkWorld (some (elfFile 0)) fun k => k == 5)).1.all (fun x => decide (x.1 = -1)) = true := by
    decide +kernel
  obtain ⟨r, p', w', hrun, h⟩ : ∃ r p' w', (exec 0x80007 (forkTable.proc 0) [0x61] [[0x62]]).run KOp.exec
      (forkWorld (some (elfFile 0)) fun k => k == 5) = (some (r, p'), w') ∧ (r = -1 → _) :=
    (exec_failure (p := forkTable.proc 0) rfl rfl (fullTable_full 0x80007 0x80206 0x80203).1
      (forkWorld_acc _ _) rfl).1 _ _ (by decide) (by decide)
  rw [hrun] at hfail
  have hr : r = -1 := of_decide_eq_true hfail
  subst hr
  exact ⟨p', w', hrun, (h rfl).1, (h rfl).2.1⟩

end Xv6.Vm
