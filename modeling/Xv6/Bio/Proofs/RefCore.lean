import Xv6.Bio.Loose
import Xv6.Bio.Machine

/-!
# Reference counts of buffers

`RefCore` says that a reference count is the number of references that processes have, plus one for
a pinned block, and what that needs: a block is cached once, a reference keeps its buffer, and a
process has a reference to a buffer only with the lock, or loose. One lemma for each step that
touches any of it.
-/

namespace Xv6

open Function
open BState (bufOf setBuf_same setBuf_ne setPtr)

namespace BState

/-- Number of references to buffer `i`: calls of `bget` not yet matched by `brelse`. -/
def holders (s : BState Proc) (i : Fin NBUF) : Nat :=
  ∑ t, (s.ptr t).countP fun p => p.2 = i

/-- One if the block of buffer `i` is pinned. -/
def pins (s : BState Proc) (pinned : List Nat) (i : Fin NBUF) : Nat :=
  if (s.buf i).dev = ROOTDEV ∧ (s.buf i).blockno ∈ pinned then 1 else 0

theorem mem_ptr {s : BState Proc} {t : Proc} {b : Nat} {i : Fin NBUF} (h : s.bufOf t b = some i) :
    (b, i) ∈ s.ptr t := by
  obtain ⟨l1, l2, heq, -⟩ := List.lookup_eq_some_iff.mp h
  simp [heq]

theorem holders_setPtr (s : BState Proc) (t : Proc) (l : List (Nat × Fin NBUF)) (i : Fin NBUF) :
    (s.setPtr t l).holders i + (s.ptr t).countP (fun p => p.2 = i) =
      s.holders i + l.countP (fun p => p.2 = i) := by
  unfold holders
  rw [← Finset.add_sum_erase _ _ (Finset.mem_univ t), ← Finset.add_sum_erase _ _ (Finset.mem_univ t)]
  have hrest : ∑ u ∈ Finset.univ.erase t, ((s.setPtr t l).ptr u).countP (fun p => p.2 = i) =
      ∑ u ∈ Finset.univ.erase t, (s.ptr u).countP (fun p => p.2 = i) :=
    Finset.sum_congr rfl fun u hu => by simp [setPtr, Finset.ne_of_mem_erase hu]
  have hself : (s.setPtr t l).ptr t = l := by simp [setPtr]
  rw [hrest, hself]
  omega

end BState

/-- The invariant of the reference counts. `loose` gives the loose reference of each process. -/
structure RefCore (s : BState Proc) (pinned : List Nat) (loose : Proc → Option Nat) : Prop where
  uniq : ∀ b i j, s.Caches b i → s.Caches b j → i = j
  ptr : ∀ t b i, (b, i) ∈ s.ptr t → s.Caches b i
  cached : ∀ b ∈ pinned, ∃ i, s.Caches b i
  nodup : pinned.Nodup
  exact : ∀ i, (s.buf i).refcnt.toNat = s.holders i + s.pins pinned i
  /-- A process refers to a buffer once under its lock, and once loosely. -/
  locked : ∀ t i, (s.ptr t).countP (fun p => p.2 = i) ≤
    (if (s.buf i).lock = some t then 1 else 0) +
      (if (loose t).bind (s.bufOf t) = some i then 1 else 0)
  lru : ∀ i, i ∈ s.lru

namespace RefCore

variable {s : BState Proc} {pinned pinned' : List Nat} {loose loose' : Proc → Option Nat}

theorem boot (disk : Nat → Block) : RefCore (.boot disk) [] (fun _ => none) := by
  constructor <;> simp [BState.boot, BState.Caches, BState.holders, BState.pins]

theorem holders_le (h : RefCore s pinned loose) (i : Fin NBUF) : s.holders i ≤ 2 * NPROC := by
  have hsum : s.holders i ≤ Finset.univ.card (α := Proc) * 2 := by
    refine (Finset.sum_le_card_nsmul _ _ 2 fun t _ => ?_).trans (by simp)
    refine (h.locked t i).trans ?_
    split <;> split <;> omega
  simpa [Nat.mul_comm] using hsum

theorem pins_le (s : BState Proc) (pinned : List Nat) (i : Fin NBUF) : s.pins pinned i ≤ 1 := by
  unfold BState.pins
  split <;> omega

theorem refcnt_lt (h : RefCore s pinned loose) (i : Fin NBUF) :
    (s.buf i).refcnt.toNat + 1 < 2 ^ 32 := by
  have hle := h.holders_le i
  have hp := pins_le s pinned i
  have he := h.exact i
  simp only [NPROC] at hle
  omega

variable {s' : BState Proc} {i : Fin NBUF} {b : Nat} {t : Proc}

section

variable (h : RefCore s pinned loose)
include h

theorem lock_eq (ht : loose t = none) (hi : s.bufOf t b = some i) : (s.buf i).lock = some t := by
  have hpos : 0 < (s.ptr t).countP (fun p => p.2 = i) :=
    List.countP_pos_iff.mpr ⟨(b, i), BState.mem_ptr hi, by simp⟩
  have hle := h.locked t i
  by_contra hne
  rw [if_neg hne, ht, if_neg (by simp)] at hle
  omega

theorem caches_of_bufOf (hi : s.bufOf t b = some i) : s.Caches b i :=
  h.ptr t b i (BState.mem_ptr hi)

/-- A step that renames no buffer and moves none out of the list: what is left to show. -/
theorem of_names
    (hname : ∀ i, (s'.buf i).dev = (s.buf i).dev ∧ (s'.buf i).blockno = (s.buf i).blockno)
    (hlru : ∀ i ∈ s.lru, i ∈ s'.lru) (hptr : ∀ t b i, (b, i) ∈ s'.ptr t → s.Caches b i)
    (hcached : ∀ b ∈ pinned', ∃ i, s.Caches b i) (hnodup : pinned'.Nodup)
    (hexact : ∀ i, (s'.buf i).refcnt.toNat = s'.holders i + s.pins pinned' i)
    (hlocked : ∀ t i, (s'.ptr t).countP (fun p => p.2 = i) ≤
      (if (s'.buf i).lock = some t then 1 else 0) +
        (if (loose' t).bind (s'.bufOf t) = some i then 1 else 0)) : RefCore s' pinned' loose' := by
  have hcaches : ∀ b i, s'.Caches b i ↔ s.Caches b i := fun b i => by simp [BState.Caches, hname i]
  constructor
  case uniq => exact fun b i j hi hj => h.uniq b i j ((hcaches b i).mp hi) ((hcaches b j).mp hj)
  case ptr => exact fun t b i hm => (hcaches b i).mpr (hptr t b i hm)
  case cached => exact fun b hb => (hcached b hb).imp fun i => (hcaches b i).mpr
  case nodup => exact hnodup
  case exact =>
    intro i
    rw [hexact i]
    simp [BState.pins, hname i]
  case locked => exact hlocked
  case lru => exact fun i => hlru i (h.lru i)

theorem relock (hptr : s'.ptr = s.ptr) (hlru : s'.lru = s.lru)
    (hbuf : ∀ i, (s'.buf i).dev = (s.buf i).dev ∧ (s'.buf i).blockno = (s.buf i).blockno ∧
      (s'.buf i).refcnt = (s.buf i).refcnt)
    (hlocked : ∀ t i, (s.ptr t).countP (fun p => p.2 = i) ≤
      (if (s'.buf i).lock = some t then 1 else 0) +
        (if (loose' t).bind (s.bufOf t) = some i then 1 else 0)) : RefCore s' pinned loose' := by
  refine h.of_names (fun i => ⟨(hbuf i).1, (hbuf i).2.1⟩) (hlru ▸ fun _ hi => hi)
    (hptr ▸ h.ptr) h.cached h.nodup (fun i => ?_) fun t i => ?_
  · rw [(hbuf i).2.2, h.exact i]
    simp only [BState.holders, hptr]
  · have hof : s'.bufOf t = s.bufOf t := funext fun b => by simp only [bufOf, hptr]
    rw [hof, hptr]
    exact hlocked t i

theorem frame (hptr : s'.ptr = s.ptr) (hlru : s'.lru = s.lru)
    (hbuf : ∀ i, (s'.buf i).dev = (s.buf i).dev ∧ (s'.buf i).blockno = (s.buf i).blockno ∧
      (s'.buf i).refcnt = (s.buf i).refcnt ∧ (s'.buf i).lock = (s.buf i).lock) :
    RefCore s' pinned loose := by
  refine h.relock hptr hlru (fun i => ⟨(hbuf i).1, (hbuf i).2.1, (hbuf i).2.2.1⟩) fun t i => ?_
  rw [(hbuf i).2.2.2]
  exact h.locked t i

end

theorem setBuf_field {α : Type} (g : Buf Proc → α) {f : Buf Proc → Buf Proc}
    (hf : ∀ x, g (f x) = g x) (s : BState Proc) (i j : Fin NBUF) :
    g ((s.setBuf i f).buf j) = g (s.buf j) := by
  by_cases hj : j = i
  · rw [hj, setBuf_same, hf]
  · rw [setBuf_ne s f hj]

theorem setRefcnt_names (s : BState Proc) (i : Fin NBUF) (f : BitVec 32 → BitVec 32)
    (j : Fin NBUF) :
    ((s.setBuf i fun x => { x with refcnt := f x.refcnt }).buf j).dev = (s.buf j).dev ∧
      ((s.setBuf i fun x => { x with refcnt := f x.refcnt }).buf j).blockno = (s.buf j).blockno ∧
      ((s.setBuf i fun x => { x with refcnt := f x.refcnt }).buf j).lock = (s.buf j).lock :=
  ⟨setBuf_field Buf.dev (fun _ => by rfl) s i j, setBuf_field Buf.blockno (fun _ => by rfl) s i j,
    setBuf_field Buf.lock (fun _ => by rfl) s i j⟩

section
variable (h : RefCore s pinned loose)
include h

theorem setBuf (i : Fin NBUF) (f : Buf Proc → Buf Proc)
    (hf : ∀ x, (f x).dev = x.dev ∧ (f x).blockno = x.blockno ∧ (f x).refcnt = x.refcnt ∧
      (f x).lock = x.lock) : RefCore (s.setBuf i f) pinned loose :=
  h.frame rfl rfl fun j => ⟨setBuf_field Buf.dev (fun x => (hf x).1) s i j,
    setBuf_field Buf.blockno (fun x => (hf x).2.1) s i j,
    setBuf_field Buf.refcnt (fun x => (hf x).2.2.1) s i j,
    setBuf_field Buf.lock (fun x => (hf x).2.2.2) s i j⟩

/-- The lock of buffer `i` and the loose reference of `t` change places. -/
theorem setLock {l : Option Proc} {o : Option Nat} (hother : ∀ u, u ≠ t → (s.buf i).lock ≠ some u)
    (hsum : (if (s.buf i).lock = some t then 1 else 0) +
      (if (loose t).bind (s.bufOf t) = some i then 1 else 0) ≤
      (if l = some t then 1 else 0) + (if o.bind (s.bufOf t) = some i then 1 else 0))
    (hrest : ∀ j, j ≠ i → (loose t).bind (s.bufOf t) ≠ some j) :
    RefCore (s.setBuf i fun x => { x with lock := l }) pinned (update loose t o) := by
  refine h.relock rfl rfl (fun j => ⟨setBuf_field Buf.dev (fun _ => by rfl) s i j,
    setBuf_field Buf.blockno (fun _ => by rfl) s i j, setBuf_field Buf.refcnt (fun _ => by rfl) s i j⟩)
    fun u j => ?_
  have hle := h.locked u j
  by_cases hu : u = t
  · subst hu
    rw [update_self]
    by_cases hj : j = i
    · subst hj
      rw [setBuf_same]
      exact hle.trans hsum
    · rw [if_neg (hrest j hj)] at hle
      rw [setBuf_ne s _ hj]
      omega
  · rw [update_of_ne hu]
    by_cases hj : j = i
    · subst hj
      rw [if_neg (hother u hu)] at hle
      omega
    · rwa [setBuf_ne s _ hj]

theorem acquire (ht : loose t = some b) (hi : s.bufOf t b = some i)
    (hfree : (s.buf i).lock = none) :
    RefCore (s.setBuf i fun x => { x with lock := some t }) pinned (update loose t none) :=
  h.setLock (by simp [hfree]) (by simp [hfree, ht, hi]) fun j hj => by simp [ht, hi, Ne.symm hj]

theorem release (ht : loose t = none) (hi : s.bufOf t b = some i) :
    RefCore (s.setBuf i fun x => { x with lock := none }) pinned (update loose t (some b)) :=
  h.setLock (fun u hu => by simp [h.lock_eq ht hi, Ne.symm hu]) (by simp [h.lock_eq ht hi, ht, hi])
    (by simp [ht])

end

/-! ### Taking and dropping references -/

section

variable (h : RefCore s pinned loose)
include h

theorem locked_take (ht : loose t = none) (b : Nat) (i : Fin NBUF) (u : Proc) (j : Fin NBUF) :
    ((s.setPtr t ((b, i) :: s.ptr t)).ptr u).countP (fun p => p.2 = j) ≤
      (if (s.buf j).lock = some u then 1 else 0) +
        (if (update loose t (some b) u).bind
            ((s.setPtr t ((b, i) :: s.ptr t)).bufOf u) = some j then 1 else 0) := by
  have hle := h.locked u j
  by_cases hu : u = t
  · subst hu
    have hof : (s.setPtr u ((b, i) :: s.ptr u)).bufOf u b = some i := by simp [bufOf, setPtr]
    have hptr : (s.setPtr u ((b, i) :: s.ptr u)).ptr u = (b, i) :: s.ptr u := by
      simp [setPtr]
    rw [ht] at hle
    rw [hptr, update_self, Option.bind_some, hof, List.countP_cons]
    by_cases hj : j = i
    · subst hj
      simpa using hle
    · simpa [Ne.symm hj] using hle
  · have hptr : (s.setPtr t ((b, i) :: s.ptr t)).ptr u = s.ptr u := by simp [setPtr, hu]
    have hof : (s.setPtr t ((b, i) :: s.ptr t)).bufOf u = s.bufOf u := by
      funext c
      simp [bufOf, hptr]
    rw [hptr, hof, update_of_ne hu]
    exact hle

theorem hit (ht : loose t = none) (hi : s.Caches b i) :
    RefCore ((s.setBuf i fun x => { x with refcnt := x.refcnt + 1 }).setPtr t ((b, i) :: s.ptr t))
      pinned (update loose t (some b)) := by
  have hname := setRefcnt_names s i (· + 1)
  refine h.of_names (fun j => ⟨(hname j).1, (hname j).2.1⟩)
    (fun _ hj => hj) (fun u c j hm => ?_) h.cached h.nodup (fun j => ?_) fun u j => ?_
  · by_cases hu : u = t
    · subst hu
      simp only [setPtr, update_self, List.mem_cons, Prod.mk.injEq] at hm
      rcases hm with ⟨rfl, rfl⟩ | hm
      · exact hi
      · exact h.ptr u c j hm
    · exact h.ptr u c j (by simpa [setPtr, hu, BState.setBuf] using hm)
  · have hhold := (s.setBuf i fun x => { x with refcnt := x.refcnt + 1 }).holders_setPtr t
      ((b, i) :: s.ptr t) j
    have hsame : (s.setBuf i fun x => { x with refcnt := x.refcnt + 1 }).holders j = s.holders j :=
      rfl
    have hold := h.exact j
    have hlt := h.refcnt_lt j
    simp only [hsame, List.countP_cons] at hhold
    change ((s.setBuf i fun x => { x with refcnt := x.refcnt + 1 }).buf j).refcnt.toNat = _
    by_cases hj : j = i
    · subst hj
      simp only [setBuf_same, BitVec.toNat_add]
      have hone : (1 : BitVec 32).toNat = 1 := rfl
      rw [hone, Nat.mod_eq_of_lt hlt]
      simp only [decide_true, if_true] at hhold
      change _ + List.countP _ (s.ptr t) = _ at hhold
      omega
    · rw [setBuf_ne s _ hj]
      simp only [Ne.symm hj, decide_false, Bool.false_eq_true, if_false, Nat.add_zero] at hhold
      change _ + List.countP _ (s.ptr t) = _ at hhold
      omega
  · have := h.locked_take ht b i u j
    rw [← (hname j).2.2] at this
    exact this

/-- A count of zero: nobody refers to the buffer, and it is not pinned. -/
theorem unused (hzero : (s.buf i).refcnt = 0) :
    (∀ t b, (b, i) ∉ s.ptr t) ∧ ∀ b ∈ pinned, ¬ s.Caches b i := by
  have he := h.exact i
  rw [hzero, show (0 : BitVec 32).toNat = 0 from rfl] at he
  constructor
  · intro t b hm
    have hpos : 0 < (s.ptr t).countP (fun p => p.2 = i) :=
      List.countP_pos_iff.mpr ⟨(b, i), hm, by simp⟩
    have hle : (s.ptr t).countP (fun p => p.2 = i) ≤ s.holders i :=
      Finset.single_le_sum (f := fun t => (s.ptr t).countP fun p => p.2 = i)
        (fun _ _ => Nat.zero_le _) (Finset.mem_univ t)
    omega
  · rintro b hb ⟨hdev, rfl⟩
    have : s.pins pinned i = 1 := by simp [BState.pins, hdev, hb]
    omega

/-- `bget` of a block that is not cached recycles an unused buffer. -/
theorem miss (ht : loose t = none) (hmiss : ∀ j, ¬ s.Caches b j) (hzero : (s.buf i).refcnt = 0) :
    RefCore ((s.setBuf i fun x => { x with
        dev := ROOTDEV, blockno := b, valid := false, refcnt := 1 }).setPtr t ((b, i) :: s.ptr t))
      pinned (update loose t (some b)) := by
  obtain ⟨hfree, hunpinned⟩ := h.unused hzero
  generalize hs1 : (s.setBuf i fun x => { x with
    dev := ROOTDEV, blockno := b, valid := false, refcnt := 1 }) = s1
  have hptr1 : s1.ptr = s.ptr := by rw [← hs1]; rfl
  have hself : s1.buf i = { s.buf i with
      dev := ROOTDEV, blockno := b, valid := false, refcnt := 1 } := by simp [← hs1]
  have hother : ∀ j, j ≠ i → s1.buf j = s.buf j := fun j hj => by rw [← hs1, setBuf_ne s _ hj]
  have hnew : ∀ c j, (s1.setPtr t ((b, i) :: s.ptr t)).Caches c j ↔
      if j = i then c = b else s.Caches c j := by
    intro c j
    change (s1.buf j).dev = ROOTDEV ∧ (s1.buf j).blockno = c ↔ _
    by_cases hj : j = i
    · subst hj
      simp [hself, eq_comm]
    · simp [hother j hj, hj, BState.Caches]
  have hb : b ∉ pinned := fun hb => by
    obtain ⟨j, hj⟩ := h.cached b hb
    exact hmiss j hj
  constructor
  case uniq =>
    intro c j k hj hk
    rw [hnew] at hj hk
    by_cases hji : j = i <;> by_cases hki : k = i
    · rw [hji, hki]
    · simp only [hji, if_true, hki, if_false] at hj hk
      exact absurd (hj ▸ hk) (hmiss k)
    · simp only [hji, if_false, hki, if_true] at hj hk
      exact absurd (hk ▸ hj) (hmiss j)
    · simp only [hji, hki, if_false] at hj hk
      exact h.uniq c j k hj hk
  case ptr =>
    intro u c j hm
    rw [hnew]
    have hold : ∀ u, (c, j) ∈ s.ptr u → j ≠ i ∧ s.Caches c j := fun u hm =>
      ⟨fun hji => hfree u c (hji ▸ hm), h.ptr u c j hm⟩
    by_cases hu : u = t
    · subst hu
      simp only [setPtr, update_self, List.mem_cons, Prod.mk.injEq] at hm
      rcases hm with ⟨rfl, rfl⟩ | hm
      · simp
      · obtain ⟨hne, hc⟩ := hold u hm
        simpa [hne] using hc
    · have hm' : (c, j) ∈ s.ptr u := by simpa [setPtr, hu, hptr1] using hm
      obtain ⟨hne, hc⟩ := hold u hm'
      simpa [hne] using hc
  case cached =>
    intro c hc
    obtain ⟨j, hj⟩ := h.cached c hc
    have hne : j ≠ i := fun hji => hunpinned c hc (hji ▸ hj)
    exact ⟨j, (hnew c j).mpr (by simpa [hne] using hj)⟩
  case nodup => exact h.nodup
  case exact =>
    intro j
    have hhold := s1.holders_setPtr t ((b, i) :: s.ptr t) j
    have hsame : s1.holders j = s.holders j := by simp [BState.holders, hptr1]
    rw [hptr1, hsame, List.countP_cons] at hhold
    change (s1.buf j).refcnt.toNat = _
    by_cases hj : j = i
    · subst hj
      have hnone : s.holders j = 0 := Finset.sum_eq_zero fun u _ =>
        List.countP_eq_zero.mpr fun p hp hpj => hfree u p.1 (by
          obtain rfl : p.2 = j := by simpa using hpj
          exact hp)
      have hpins : (s1.setPtr t ((b, j) :: s.ptr t)).pins pinned j = 0 := by
        simp [BState.pins, setPtr, hself, hb]
      rw [hpins, hself]
      simp only [decide_true, if_true] at hhold
      have hone : (1 : BitVec 32).toNat = 1 := rfl
      simp only [hone]
      omega
    · have hpins : (s1.setPtr t ((b, i) :: s.ptr t)).pins pinned j = s.pins pinned j := by
        simp [BState.pins, setPtr, hother j hj]
      simp only [Ne.symm hj, decide_false, Bool.false_eq_true, if_false, Nat.add_zero] at hhold
      have hold := h.exact j
      rw [hpins, hother j hj]
      omega
  case locked =>
    intro u j
    have := h.locked_take ht b i u j
    have hlock : (s1.buf j).lock = (s.buf j).lock := by
      by_cases hj : j = i
      · subst hj
        simp [hself]
      · rw [hother j hj]
    rw [← hlock] at this
    have hptr : (s1.setPtr t ((b, i) :: s.ptr t)).ptr = (s.setPtr t ((b, i) :: s.ptr t)).ptr := by
      simp [setPtr, hptr1]
    have hof : (s1.setPtr t ((b, i) :: s.ptr t)).bufOf u =
        (s.setPtr t ((b, i) :: s.ptr t)).bufOf u := by
      funext c
      simp [bufOf, hptr]
    rw [hof, hptr]
    exact this
  case lru =>
    intro j
    rw [← hs1]
    exact h.lru j

theorem bget (ht : loose t = none) (he : s.bget t b = .done () s') :
    RefCore s' pinned (update loose t (some b)) := by
  unfold BState.bget at he
  split at he
  next i hi =>
    cases he
    have hc : s.Caches b i := by simpa using List.find?_some hi
    exact h.hit ht hc
  next hnone =>
    have hmiss : ∀ j, ¬ s.Caches b j := fun j => by
      simpa using List.find?_eq_none.mp hnone j (h.lru j)
    split at he
    next i hi =>
      cases he
      have hzero : (s.buf i).refcnt = 0 := by simpa using List.find?_some hi
      exact h.miss ht hmiss hzero
    · cases he

theorem drop (ht : loose t = some b) (hi : s.bufOf t b = some i) :
    RefCore (s.unref t b i) pinned (update loose t none) := by
  have hmem := BState.mem_ptr hi
  obtain ⟨hbuf, hptr, -, hlru⟩ := s.unref_fields t b i
  generalize s.unref t b i = s' at hbuf hptr hlru
  have hname : ∀ j, (s'.buf j).dev = (s.buf j).dev ∧ (s'.buf j).blockno = (s.buf j).blockno ∧
      (s'.buf j).lock = (s.buf j).lock := by
    rw [hbuf]
    exact setRefcnt_names s i (· - 1)
  have hperm := List.perm_cons_erase hmem
  refine h.of_names (fun j => ⟨(hname j).1, (hname j).2.1⟩) hlru (fun u c j hm => ?_) h.cached
    h.nodup (fun j => ?_) fun u j => ?_
  · by_cases hu : u = t
    · subst hu
      rw [hptr, update_self] at hm
      exact h.ptr u c j (List.mem_of_mem_erase hm)
    · exact h.ptr u c j (by simpa [hptr, hu] using hm)
  · have hhold := s.holders_setPtr t ((s.ptr t).erase (b, i)) j
    have hsame : (s.setPtr t ((s.ptr t).erase (b, i))).holders j = s'.holders j := by
      simp [BState.holders, hptr, setPtr]
    rw [hsame, hperm.countP_eq, List.countP_cons] at hhold
    have hold := h.exact j
    rw [hbuf]
    by_cases hj : j = i
    · subst hj
      simp only [decide_true, if_true] at hhold
      have hone : (1 : BitVec 32) ≤ (s.buf j).refcnt := by
        rw [BitVec.le_def]
        have : (1 : BitVec 32).toNat = 1 := rfl
        omega
      simp only [setBuf_same, BitVec.toNat_sub_of_le hone]
      have : (1 : BitVec 32).toNat = 1 := rfl
      omega
    · rw [setBuf_ne s _ hj]
      simp only [Ne.symm hj, decide_false, Bool.false_eq_true, if_false, Nat.add_zero] at hhold
      omega
  · have hle := h.locked u j
    rw [(hname j).2.2]
    by_cases hu : u = t
    · subst hu
      rw [hptr, update_self, update_self]
      rw [hperm.countP_eq, List.countP_cons, ht] at hle
      by_cases hj : j = i
      · subst hj
        simp only [decide_true, if_true, Option.bind_some, hi] at hle
        omega
      · simpa [Ne.symm hj, hi] using hle
    · have hof : s'.bufOf u = s.bufOf u := by
        funext c
        simp [bufOf, hptr, hu]
      rw [hptr, update_of_ne hu, update_of_ne hu, hof]
      exact hle

end

/-! ### Pins -/

variable (h : RefCore s pinned loose)
include h

theorem recount {f : BitVec 32 → BitVec 32} (hcached : ∀ b ∈ pinned', ∃ i, s.Caches b i)
    (hnodup : pinned'.Nodup) (hexact : (f (s.buf i).refcnt).toNat = s.holders i + s.pins pinned' i)
    (hrest : ∀ b, ¬ s.Caches b i → (b ∈ pinned' ↔ b ∈ pinned)) :
    RefCore (s.setBuf i fun x => { x with refcnt := f x.refcnt }) pinned' loose := by
  have hname := setRefcnt_names s i f
  refine h.of_names (fun j => ⟨(hname j).1, (hname j).2.1⟩) (fun _ hj => hj) h.ptr hcached hnodup
    (fun j => ?_) fun t j => ?_
  · by_cases hj : j = i
    · subst hj
      rw [setBuf_same]
      exact hexact
    have hpins : s.pins pinned' j = s.pins pinned j := by
      unfold BState.pins
      by_cases hdev : (s.buf j).dev = ROOTDEV
      · simp only [hrest _ fun hc => hj (h.uniq _ j i ⟨hdev, rfl⟩ hc)]
      · simp [hdev]
    rw [setBuf_ne s _ hj, hpins]
    exact h.exact j
  · rw [(hname j).2.2]
    exact h.locked t j

theorem pin (hi : s.Caches b i) (hb : b ∉ pinned) :
    RefCore (s.setBuf i fun x => { x with refcnt := x.refcnt + 1 }) (b :: pinned) loose := by
  refine h.recount (f := (· + 1)) (fun c hc => ?_) (List.nodup_cons.mpr ⟨hb, h.nodup⟩) ?_
    fun c hc => ?_
  · rcases List.mem_cons.mp hc with rfl | hc
    · exact ⟨i, hi⟩
    · exact h.cached c hc
  · have hold := h.exact i
    have hpins : s.pins pinned i = 0 := by simp [BState.pins, hi.2, hb]
    have hpins' : s.pins (b :: pinned) i = 1 := by simp [BState.pins, hi.1, hi.2]
    rw [BitVec.toNat_add, show (1 : BitVec 32).toNat = 1 from rfl, Nat.mod_eq_of_lt (h.refcnt_lt i)]
    omega
  · exact List.mem_cons.trans (or_iff_right fun hcb => hc (hcb ▸ hi))

theorem unpin (hi : s.Caches b i) (hb : b ∈ pinned) :
    RefCore (s.setBuf i fun x => { x with refcnt := x.refcnt - 1 }) (pinned.erase b) loose := by
  refine h.recount (f := (· - 1)) (fun c hc => h.cached c (List.mem_of_mem_erase hc))
    (h.nodup.erase b) ?_ fun c hc => List.mem_erase_of_ne fun hcb => hc (hcb ▸ hi)
  have hold := h.exact i
  have hpins : s.pins pinned i = 1 := by simp [BState.pins, hi.1, hi.2, hb]
  have hpins' : s.pins (pinned.erase b) i = 0 := by simp [BState.pins, hi.2, h.nodup.not_mem_erase]
  have hone : (1 : BitVec 32) ≤ (s.buf i).refcnt := by
    rw [BitVec.le_def, show (1 : BitVec 32).toNat = 1 from rfl]
    omega
  rw [BitVec.toNat_sub_of_le hone, show (1 : BitVec 32).toNat = 1 from rfl]
  omega

end RefCore

end Xv6
