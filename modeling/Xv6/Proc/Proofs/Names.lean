import Xv6.Proc.Names
import Xv6.Fs.Proofs.Copying

/-!
# Process names stay in their fields

Every writer of `p->name` but one bounds what it stores by the size of the field. `sys_rename` lets
through strings of up to `MAXPATH - 1` bytes, for a buffer and a field of sixteen.
-/

namespace Xv6.Names

open Function
open Space (user)

/-- The memory is as before outside of `len` bytes at `s`. -/
def Frame (mem mem' : Mem) (s len : Nat) : Prop := ∀ a, a < s ∨ s + len ≤ a → mem' a = mem a

theorem update_ne (mem : Mem) {s a : Nat} (c : BitVec 8) (h : a ≠ s) :
    update mem s c a = mem a := update_of_ne h ..

theorem safestrcpyLoop_spec (n : Nat) : ∀ (mem : Mem) (s t : Nat),
    Frame mem (safestrcpyLoop n mem s t) s (n + 1) ∧
      ∃ k < n + 1, safestrcpyLoop n mem s t (s + k) = 0 := by
  induction n with
  | zero =>
    intro mem s t
    exact ⟨fun a ha => update_ne mem 0 (by omega), 0, Nat.zero_lt_one, update_self ..⟩
  | succ n ih =>
    intro mem s t
    rw [safestrcpyLoop]
    split_ifs with hc
    · obtain ⟨hframe, k, hk, hnul⟩ := ih (update mem s (mem t)) (s + 1) (t + 1)
      refine ⟨fun a ha => ?_, k + 1, by omega, by rwa [show s + (k + 1) = s + 1 + k by omega]⟩
      rw [hframe a (by omega), update_ne mem _ (by omega)]
    · refine ⟨fun a ha => ?_, 1, by omega, update_self ..⟩
      rw [update_ne _ _ (by omega), update_ne _ _ (by omega)]

theorem safestrcpy_spec (mem : Mem) (s t : Nat) {n : Nat} (hn : 0 < n) :
    Frame mem (safestrcpy mem s t n) s n ∧ ∃ k < n, safestrcpy mem s t n (s + k) = 0 := by
  have h := safestrcpyLoop_spec (n - 1) mem s t
  rw [safestrcpy, if_neg hn.ne']
  rwa [Nat.sub_add_cancel hn] at h

/-! ## `copyinstr` -/

/-- What `copyinstr` has done: `len` bytes that are not NUL, and the NUL if it was found. -/
structure Copied (u : Nat → Option (BitVec 8)) (mem mem' : Mem) (dst src max : Nat) (ok : Bool)
    (len : Nat) : Prop where
  le : len ≤ max
  body : ∀ j < len, u (src + j) = some (mem' (dst + j)) ∧ mem' (dst + j) ≠ 0
  stop : ok = true → len < max ∧ u (src + len) = some 0 ∧ mem' (dst + len) = 0
  fail : ok = false → len = max ∨ u (src + len) = none
  frame : Frame mem mem' dst (if ok then len + 1 else len)

theorem Copied.refl {u : Nat → Option (BitVec 8)} {src max : Nat} (h : 0 = max ∨ u src = none) (mem : Mem)
    (dst : Nat) : Copied u mem mem dst src max false 0 :=
  ⟨Nat.zero_le _, fun j hj => absurd hj (Nat.not_lt_zero j), nofun, fun _ => h, fun _ _ => rfl⟩

variable {mem mem' : Mem} {table len : Nat}

theorem Copied.append {u : Nat → Option (BitVec 8)} {mem1 mem2 : Mem} {dst src max n : Nat}
    {ok : Bool} (h : Copied u mem mem1 dst src n false n)
    (h' : Copied u mem1 mem2 (dst + n) (src + n) (max - n) ok len) (hn : n ≤ max) :
    Copied u mem mem2 dst src max ok (n + len) where
  le := by
    have := h'.le
    omega
  body j hj := by
    by_cases hjn : j < n
    · rw [h'.frame (dst + j) (by omega)]
      exact h.body j hjn
    · have := h'.body (j - n) (by omega)
      rwa [show src + n + (j - n) = src + j by omega, show dst + n + (j - n) = dst + j by omega]
        at this
  stop hok := by
    obtain ⟨hlt, hu, hm⟩ := h'.stop hok
    exact ⟨by omega, by rwa [← Nat.add_assoc], by rwa [← Nat.add_assoc]⟩
  fail hok := (h'.fail hok).imp (fun hlen => by omega) fun hu => by rwa [← Nat.add_assoc]
  frame a ha := by
    have h1 : a < dst ∨ dst + n ≤ a := by
      cases ok <;> simp at ha <;> omega
    have h2 : a < dst + n ∨ dst + n + (if ok then len + 1 else len) ≤ a := by
      cases ok <;> simp at ha ⊢ <;> omega
    rw [h'.frame a h2, h.frame a (by simpa using h1)]

theorem copyinstrPage_spec (pg : Bytes PGSIZE) (u : Nat → Option (BitVec 8)) (n : Nat) :
    ∀ (off : Nat) (mem : Mem) (dst src : Nat),
      (∀ j < n, u (src + j) = some (pg.byte (off + j))) →
      ∃ len, Copied u mem (copyinstrPage pg n off mem dst).2 dst src n
        (copyinstrPage pg n off mem dst).1 len ∧
        ((copyinstrPage pg n off mem dst).1 = false → len = n) := by
  induction n with
  | zero => exact fun off mem dst src _ => ⟨0, .refl (.inl rfl) mem dst, fun _ => rfl⟩
  | succ n ih =>
    intro off mem dst src hu
    rw [copyinstrPage]
    split_ifs with hnul
    · refine ⟨0, ⟨Nat.zero_le _, fun j hj => absurd hj (Nat.not_lt_zero j), fun _ => ?_, nofun,
        fun a ha => ?_⟩, nofun⟩
      · refine ⟨Nat.succ_pos n, ?_, update_self ..⟩
        rw [hu 0 (Nat.succ_pos n), Nat.add_zero, hnul]
      · exact update_ne mem 0 (by simp at ha; omega)
    · obtain ⟨len, hcop, hlen⟩ := ih (off + 1) (update mem dst (pg.byte off)) (dst + 1)
        (src + 1) fun j hj => by
          rw [show src + 1 + j = src + (j + 1) by omega, hu (j + 1) (by omega)]
          congr 2
          omega
      have hone : Copied u mem (update mem dst (pg.byte off)) dst src 1 false 1 := by
        refine ⟨le_rfl, fun j hj => ?_, nofun, fun _ => .inl rfl,
          fun a ha => update_ne mem _ (by simp at ha; omega)⟩
        obtain rfl : j = 0 := by omega
        rw [Nat.add_zero, Nat.add_zero, update_self]
        exact ⟨hu 0 (Nat.succ_pos n), hnul⟩
      refine ⟨1 + len, hone.append (by simpa using hcop) (by omega), fun hf => ?_⟩
      rw [hlen hf]
      omega

/-- `copyinstr` stores the user's bytes up to the NUL, up to a page that is not mapped, or `max` of
them. -/
theorem copyinstr_spec (page : Nat → Option (Bytes PGSIZE)) (fuel : Nat) :
    ∀ (mem : Mem) (dst src max : Nat), max ≤ fuel →
      ∃ len, Copied (user page).byteAt mem (copyinstr page fuel mem dst src max).2 dst src max
        (copyinstr page fuel mem dst src max).1 len := by
  induction fuel with
  | zero => exact fun mem dst src max hmax => ⟨0, .refl (.inl (Nat.le_zero.mp hmax).symm) mem dst⟩
  | succ fuel ih =>
    intro mem dst src max hmax
    rw [copyinstr]
    by_cases hz : max = 0
    · rw [if_pos hz]
      exact ⟨0, .refl (.inl hz.symm) mem dst⟩
    rw [if_neg hz]
    cases hpage : page (src / PGSIZE) with
    | none => exact ⟨0, .refl (.inr (by rw [Space.byteAt, hpage]; rfl)) mem dst⟩
    | some pg =>
      have hdiv := Nat.div_add_mod' src PGSIZE
      have hmod : src % PGSIZE < PGSIZE := Nat.mod_lt _ (by decide)
      dsimp only
      generalize hn : min (PGSIZE - src % PGSIZE) max = n
      have hbytes : ∀ j < n, (user page).byteAt (src + j) =
          some (pg.byte (src % PGSIZE + j)) := by
        intro j hj
        have hd : (src + j) / PGSIZE = src / PGSIZE :=
          Nat.div_eq_of_lt_le (by omega) (by rw [Nat.succ_mul]; omega)
        have hr := Nat.div_add_mod' (src + j) PGSIZE
        rw [hd] at hr
        rw [Space.byteAt, hd, hpage, Option.map_some]
        congr 2
        omega
      obtain ⟨len, hcop, hlen⟩ := copyinstrPage_spec pg _ n (src % PGSIZE) mem dst src hbytes
      rcases hpiece : copyinstrPage pg n (src % PGSIZE) mem dst with ⟨null, mem1⟩
      rw [hpiece] at hcop hlen
      cases null with
      | true =>
        have := hcop.le
        exact ⟨len, by omega, hcop.body, fun hok => ⟨by have := (hcop.stop hok).1; omega,
          (hcop.stop hok).2⟩, Bool.noConfusion, hcop.frame⟩
      | false =>
        obtain rfl := hlen rfl
        -- the page ends here, or nothing is left to copy
        by_cases hend : len = max
        · have hstop : ∀ (m : Mem) (d s : Nat), copyinstr page fuel m d s 0 = (false, m) := by
            intro m d s
            cases fuel with
            | zero => rfl
            | succ fuel => rw [copyinstr, if_pos rfl]
          rw [hend, Nat.sub_self, hstop]
          exact ⟨len, hend ▸ hcop⟩
        · have hnext : src / PGSIZE * PGSIZE + PGSIZE = src + len := by omega
          obtain ⟨len', hrest⟩ := ih mem1 (dst + len) (src + len) (max - len) (by omega)
          rw [hnext]
          exact ⟨len + len', hcop.append hrest (by omega)⟩

theorem strlen_eq (fuel : Nat) : ∀ s, len < fuel →
    (∀ j < len, mem (s + j) ≠ 0) → mem (s + len) = 0 → strlen mem fuel s = len := by
  induction len generalizing fuel with
  | zero =>
    intro s hfuel _ hnul
    obtain ⟨k, rfl⟩ : ∃ k, fuel = k + 1 := ⟨fuel - 1, by omega⟩
    rw [strlen, if_pos (by simpa using hnul)]
  | succ len ih =>
    intro s hfuel hbody hnul
    obtain ⟨k, rfl⟩ : ∃ k, fuel = k + 1 := ⟨fuel - 1, by omega⟩
    rw [strlen, if_neg (by simpa using hbody 0 (Nat.succ_pos len)), ih k (s + 1) (by omega)
      (fun j hj => by rw [show s + 1 + j = s + (j + 1) by omega]; exact hbody (j + 1) (by omega))
      (by rwa [show s + 1 + len = s + (len + 1) by omega])]

/-! ## `sys_rename` -/

/-- Among the first sixteen bytes of the user's string there is the NUL, or among the first seventeen one
that cannot be read. -/
def Short (page : Nat → Option (Bytes PGSIZE)) (addr : Nat) : Prop :=
  (∃ k < nameSize, (user page).byteAt (addr + k) = some 0) ∨
    ∃ k ≤ nameSize, (user page).byteAt (addr + k) = none

/-- `sys_rename` writes only its buffer and the caller's name, its buffer only if it fails, and the name is
the string if it succeeds. -/
structure Contained (table i : Nat) (page : Nat → Option (Bytes PGSIZE)) (addr buf : Nat) (mem : Mem) :
    Prop where
  frame : ∀ a, (a < buf ∨ buf + nameSize ≤ a) →
    (a < nameAddr table i ∨ nameAddr table i + nameSize ≤ a) →
    (sysRename table i page addr buf mem).2 a = mem a
  failed : (sysRename table i page addr buf mem).1 ≠ 0 →
    ∀ a, (a < buf ∨ buf + nameSize ≤ a) → (sysRename table i page addr buf mem).2 a = mem a
  name : (sysRename table i page addr buf mem).1 = 0 → ∃ len < nameSize,
    (∀ j < len, (user page).byteAt (addr + j) =
        some ((sysRename table i page addr buf mem).2 (nameAddr table i + j)) ∧
      (sysRename table i page addr buf mem).2 (nameAddr table i + j) ≠ 0) ∧
    (user page).byteAt (addr + len) = some 0 ∧
    (sysRename table i page addr buf mem).2 (nameAddr table i + len) = 0

section
variable {page : Nat → Option (Bytes PGSIZE)} {addr : Nat}

theorem sysRename_spec (table i buf : Nat) (mem : Mem) (hshort : Short page addr) :
    Contained table i page addr buf mem := by
  obtain ⟨len, hcop⟩ := copyinstr_spec page MAXPATH mem buf addr MAXPATH le_rfl
  have hlen : ∀ {k}, (user page).byteAt (addr + k) = none ∨ (user page).byteAt (addr + k) = some 0 →
      len ≤ k := by
    intro k hstop
    by_contra hlt
    obtain ⟨hbyte, hne⟩ := hcop.body k (by omega)
    rcases hstop with h | h
    · rw [h] at hbyte
      cases hbyte
    · rw [h] at hbyte
      exact hne (Option.some.inj hbyte).symm
  have hle : len ≤ nameSize := by
    rcases hshort with ⟨k, hk, h⟩ | ⟨k, hk, h⟩
    · exact (hlen (.inr h)).trans hk.le
    · exact (hlen (.inl h)).trans hk
  rcases hres : copyinstr page MAXPATH mem buf addr MAXPATH with ⟨ok, mem1⟩
  rw [hres] at hcop
  cases ok with
  | false =>
    have hrun : sysRename table i page addr buf mem = (-1, mem1) := by
      rw [sysRename, fetchstr, hres]
      rfl
    have hframe : ∀ a, (a < buf ∨ buf + nameSize ≤ a) → mem1 a = mem a := fun a ha =>
      hcop.frame a (by simp only [Bool.false_eq_true, if_false]; omega)
    constructor <;> rw [hrun]
    exacts [fun a ha _ => hframe a ha, fun _ => hframe, fun h => by cases h]
  | true =>
    obtain ⟨hmax, hu, hnul⟩ := hcop.stop rfl
    have hlt : len < nameSize := by
      rcases hshort with ⟨k, hk, h⟩ | ⟨k, hk, h⟩
      · exact (hlen (.inr h)).trans_lt hk
      · refine (lt_of_le_of_ne (hlen (.inl h)) fun hne => ?_).trans_le hk
        rw [hne, h] at hu
        cases hu
    have hframe : ∀ a, (a < buf ∨ buf + nameSize ≤ a) → mem1 a = mem a := fun a ha =>
      hcop.frame a (by simp only [if_true]; omega)
    have hrun : sysRename table i page addr buf mem =
        (0, update (memmove mem1 (nameAddr table i) buf len) (nameAddr table i + len) 0) := by
      rw [sysRename, fetchstr, hres]
      simp only [if_true, strlen_eq MAXPATH buf hmax (fun j hj => (hcop.body j hj).2) hnul,
        if_neg (by omega : ¬((len : Int) < 0)), Int.toNat_natCast]
    constructor <;> rw [hrun] <;> dsimp only
    · intro a ha hname
      rw [update_ne _ _ (by omega), memmove, if_neg (by omega), hframe a ha]
    · exact fun h => absurd rfl h
    · refine fun _ => ⟨len, hlt, fun j hj => ?_, hu, update_self ..⟩
      rw [update_ne _ _ (by omega), memmove, if_pos (by omega), Nat.add_sub_cancel_left]
      exact hcop.body j hj

/-- A longer string is refused with the byte behind the buffer overwritten, or it is no name. -/
theorem Contained.short {table i buf : Nat} (h : ∀ mem, Contained table i page addr buf mem) :
    Short page addr := by
  by_contra hlong
  have hnul : ∀ k < nameSize, (user page).byteAt (addr + k) ≠ some 0 := fun k hk h =>
    hlong (.inl ⟨k, hk, h⟩)
  have hread : ∀ k ≤ nameSize, (user page).byteAt (addr + k) ≠ none := fun k hk h =>
    hlong (.inr ⟨k, hk, h⟩)
  obtain ⟨c, hc⟩ := Option.ne_none_iff_exists'.mp (hread nameSize le_rfl)
  have hmem := h fun _ => c + 1
  by_cases hr : (sysRename table i page addr buf fun _ => c + 1).1 = 0
  · obtain ⟨len, hlen, -, hu, -⟩ := hmem.name hr
    exact hnul len hlen hu
  have hkept := hmem.failed hr (buf + nameSize) (.inr le_rfl)
  obtain ⟨len, hcop⟩ := copyinstr_spec page MAXPATH (fun _ => c + 1) buf addr MAXPATH le_rfl
  rcases hres : copyinstr page MAXPATH (fun _ => c + 1) buf addr MAXPATH with ⟨ok, mem1⟩
  rw [hres] at hcop
  cases ok with
  | true =>
    refine hr ?_
    rw [sysRename, fetchstr, hres]
    simp only [if_true, if_neg (by omega : ¬((strlen mem1 MAXPATH buf : Int) < 0))]
  | false =>
    have hlen : nameSize < len := by
      rcases hcop.fail rfl with rfl | hu
      · decide
      · by_contra hle
        exact hread len (not_lt.mp hle) hu
    have hbyte := (hcop.body nameSize hlen).1
    rw [sysRename, fetchstr, hres] at hkept
    have hkept : mem1 (buf + nameSize) = c + 1 := hkept
    rw [hc] at hbyte
    have := (Option.some.inj hbyte).trans hkept
    bv_omega

end

/-! ## Runs -/

def Terminated (table : Nat) (mem : Mem) : Prop :=
  ∀ i < NPROC, ∃ k < nameSize, mem (nameAddr table i + k) = 0

theorem nameAddr_apart (table : Nat) {i j k : Nat} (hij : j ≠ i) (hk : k < nameSize) :
    nameAddr table j + k < nameAddr table i ∨ nameAddr table i + nameSize ≤ nameAddr table j + k := by
  simp only [nameAddr, nameOffset, procSize, nameSize] at hk ⊢
  omega

theorem nameAddr_lt (table : Nat) {i k : Nat} (hi : i < NPROC) (hk : k < nameSize) :
    table ≤ nameAddr table i + k ∧ nameAddr table i + k < table + procSize * NPROC := by
  simp only [nameAddr, nameOffset, procSize, nameSize, NPROC] at hi hk ⊢
  omega

section
variable (h : Terminated table mem)
include h

theorem Terminated.write (i : Nat)
    (hother : ∀ j < NPROC, j ≠ i → ∀ k < nameSize,
      mem' (nameAddr table j + k) = mem (nameAddr table j + k))
    (hnul : ∃ k < nameSize, mem' (nameAddr table i + k) = 0) : Terminated table mem' := by
  intro j hj
  by_cases hij : j = i
  · exact hij ▸ hnul
  · obtain ⟨k, hk, hz⟩ := h j hj
    exact ⟨k, hk, by rw [hother j hj hij k hk, hz]⟩

theorem Terminated.step (hs : Step table Short mem mem') : Terminated table mem' := by
  have hcpy : ∀ i t, Terminated table (safestrcpy mem (nameAddr table i) t nameSize) := by
    intro i t
    obtain ⟨hframe, hnul⟩ := safestrcpy_spec mem (nameAddr table i) t (by decide : 0 < nameSize)
    exact h.write i (fun j _ hij k hk => hframe _ (nameAddr_apart table hij hk)) hnul
  cases hs with
  | userinit i hi initcode => exact hcpy i initcode
  | fork p np hp hnp => exact hcpy np _
  | exec i hi path => exact hcpy i _
  | freeproc i hi =>
    refine h.write i (fun j _ hij k hk => update_ne mem 0 ?_) ⟨0, by decide, update_self ..⟩
    have := nameAddr_apart table hij hk
    omega
  | other _ hsame =>
    intro i hi
    obtain ⟨k, hk, hz⟩ := h i hi
    exact ⟨k, hk, by rw [hsame i hi k hk, hz]⟩
  | rename i hi page addr buf hshort hbuf =>
    obtain ⟨hframe, hfail, hok⟩ := sysRename_spec table i buf mem hshort
    have hout : ∀ j < NPROC, ∀ k < nameSize,
        nameAddr table j + k < buf ∨ buf + nameSize ≤ nameAddr table j + k := fun j hj k hk => by
      have := nameAddr_lt table hj hk
      omega
    by_cases hr : (sysRename table i page addr buf mem).1 = 0
    · obtain ⟨len, hlen, -, -, hnul⟩ := hok hr
      exact h.write i (fun j hj hij k hk => hframe _ (hout j hj k hk) (nameAddr_apart table hij hk))
        ⟨len, hlen, hnul⟩
    · intro j hj
      obtain ⟨k, hk, hz⟩ := h j hj
      exact ⟨k, hk, by rw [hfail hr _ (hout j hj k hk), hz]⟩

theorem Terminated.run
    (hs : Relation.ReflTransGen (Step table Short) mem mem') : Terminated table mem' := by
  induction hs with
  | refl => exact h
  | tail _ hstep ih => exact ih.step hstep

end

/-- Names stay in their fields, if every string given to `sys_rename` ends within sixteen bytes or cannot be
read within seventeen. In every reachable state each name has its NUL within its sixteen bytes. And
`sys_rename` keeps to its buffer and the caller's name, whatever is in memory, for these strings only. -/
theorem names_contained {table : Nat} {mem0 mem : Mem}
    (h0 : ∀ i < NPROC, ∀ k < nameSize, mem0 (nameAddr table i + k) = 0)
    (hrun : Relation.ReflTransGen (Step table Short) mem0 mem) :
    Terminated table mem ∧
    ∀ (i : Nat) (page : Nat → Option (Bytes PGSIZE)) (addr buf : Nat),
      (∀ mem, Contained table i page addr buf mem) ↔ Short page addr := by
  have hterm : Terminated table mem0 := fun i hi => ⟨0, by decide, h0 i hi 0 (by decide)⟩
  exact ⟨hterm.run hrun, fun i page addr buf =>
    ⟨Contained.short, fun hshort mem => sysRename_spec table i buf mem hshort⟩⟩

/-- A page of user memory with `n` letters and then zeroes. -/
def letters (n : Nat) : Nat → Option (Bytes PGSIZE) := fun p =>
  if p = 0 then some fun j => if j.val < n then 97 else 0 else none

/-- The first process takes a name of three letters. -/
theorem names_contained_three :
    Terminated 0 (sysRename 0 0 (letters 3) 0 100000 fun _ => 0).2 := by
  have hshort : Short (letters 3) 0 := .inl ⟨3, by decide, by decide +kernel⟩
  have hstep : Step 0 Short (fun _ => 0) (sysRename 0 0 (letters 3) 0 100000 fun _ => 0).2 :=
    .rename _ 0 (by decide) (letters 3) 0 100000 hshort (.inr (by decide))
  exact (names_contained (fun _ _ _ _ => rfl) (.single hstep)).1

/-- No process has a name yet. The lock of the second process is held, and a byte follows the buffer of
`sys_rename` at 100000. -/
def lockHeld : Mem := fun a => if a = procSize ∨ a = 100000 + nameSize then 1 else 0

/-- `sys_rename` with a string of sixteen letters is accepted. The byte behind the buffer and the first
byte of the next process, which is that of its lock, are written, and the name has no NUL in its
field. -/
theorem rename_overruns :
    (sysRename 0 0 (letters 16) 0 100000 lockHeld).1 = 0 ∧
    (lockHeld (100000 + nameSize) = 1 ∧
      (sysRename 0 0 (letters 16) 0 100000 lockHeld).2 (100000 + nameSize) = 0) ∧
    (lockHeld procSize = 1 ∧ (sysRename 0 0 (letters 16) 0 100000 lockHeld).2 procSize = 0) ∧
    ∀ k : Fin nameSize,
      (sysRename 0 0 (letters 16) 0 100000 lockHeld).2 (nameAddr 0 0 + k) = 97 := by
  decide +kernel

end Xv6.Names
