import Xv6.Bio.Ring

/-!
# The structure of the buffer cache

The links form one ring through all buffers, a block is cached once, and `bget` recycles the unused
buffer that was released longest ago. Where calls are matched, a reference count is exact, so that
`bget` recycles no buffer which is held or pinned.
-/

namespace Xv6

open Function
open BioTrail (note start)

variable {Tid : Type} {c c' : Bcache Tid} {l : List (Fin NBUF)} {b i : Fin NBUF} {g : BioTrail}
  {ok : BioTrail → BioOp → Prop} {n : BitVec 32} {o : BioOp} {t : Tid} {k : Nat}

def Buf.ident (x : Buf Tid) : Nat × Nat × Bool := (x.dev, x.blockno, x.valid)

namespace Bcache

@[simp] theorem setBuf_same (c : Bcache Tid) (b : Fin NBUF) (x : Buf Tid) :
    (c.setBuf b x).buf b = x := by
  simp [setBuf]

theorem setBuf_ne (c : Bcache Tid) (x : Buf Tid) (h : i ≠ b) : (c.setBuf b x).buf i = c.buf i := by
  simp [setBuf, h]

def recycle (c : Bcache Tid) (b : Fin NBUF) (dev blockno : Nat) : Bcache Tid :=
  c.setBuf b { c.buf b with dev := dev, blockno := blockno, valid := false, refcnt := 1 }

theorem bget_cases (hl : Ring c.links l) (hmem : ∀ i, i ∈ l) {dev blockno : Nat}
    (h : c.bget dev blockno = .done b c') :
    ((c.buf b).dev = dev ∧ (c.buf b).blockno = blockno ∧ c' = c.bpin b) ∨
    ((∀ i, (c.buf i).dev = dev → (c.buf i).blockno ≠ blockno) ∧ (c.buf b).refcnt = 0 ∧
      (∃ m n, l = m ++ b :: n ∧ ∀ i ∈ n, (c.buf i).refcnt ≠ 0) ∧ c' = c.recycle b dev blockno) := by
  have hlen : l.length ≤ NBUF := by simpa using hl.nodup.length_le_card
  unfold bget at h
  rw [hl.scan_next _ hlen, hl.scan_prev _ hlen] at h
  split at h
  next i hi =>
    cases h
    have hc : (c.buf b).dev = dev ∧ (c.buf b).blockno = blockno := by simpa using List.find?_some hi
    exact .inl ⟨hc.1, hc.2, rfl⟩
  next hnone =>
    have hmiss : ∀ i, (c.buf i).dev = dev → (c.buf i).blockno ≠ blockno := fun i => by
      simpa using List.find?_eq_none.mp hnone i (hmem i)
    split at h
    next i hi =>
      cases h
      obtain ⟨hzero, n, m, hsplit, hn⟩ := List.find?_eq_some_iff_append.mp hi
      refine .inr ⟨hmiss, by simpa using hzero, ⟨m.reverse, n.reverse, ?_, fun i hin => ?_⟩, rfl⟩
      · have := congrArg List.reverse hsplit
        simpa using this
      · simpa using hn i (by simpa using hin)
    · cases h

theorem brelse_buf (c : Bcache Tid) (b : Fin NBUF) : (c.brelse b).buf = (c.bunpin b).buf := by
  unfold brelse bunpin
  dsimp only
  split <;> rfl

theorem brelse_links (c : Bcache Tid) (b : Fin NBUF) :
    (c.brelse b).links =
      if ((c.brelse b).buf b).refcnt = 0 then (c.links.unlink b).pushFront b else c.links := by
  rw [brelse_buf]
  unfold brelse bunpin
  dsimp only
  split <;> rfl

end Bcache

/-! ## Every sequence of calls -/

/-- The invariant of all sequences, for the order `l` of the ring. -/
structure BioInv (c : Bcache Tid) (g : BioTrail) (l : List (Fin NBUF)) : Prop where
  ring : Ring c.links l
  all : ∀ b, b ∈ l
  order : l.Pairwise fun a b => g.released b < g.released a ∨ g.released b = 0
  past : ∀ b, g.released b ≤ g.now
  uniq : ∀ i j, (c.buf i).dev ≠ 0 → (c.buf i).dev = (c.buf j).dev →
    (c.buf i).blockno = (c.buf j).blockno → i = j

namespace BioInv

theorem binit : BioInv (Bcache.binit : Bcache Tid) .start (List.finRange NBUF).reverse where
  ring := by
    have := Ring.empty.foldl_pushFront (List.nodup_finRange NBUF) (by simp)
    simpa [Bcache.binit] using this
  all := by simp
  order := List.pairwise_of_forall fun _ _ => .inr rfl
  past := fun _ => Nat.le_refl 0
  uniq := fun _ _ h => absurd rfl h

variable {g' : BioTrail}

theorem keep (h : BioInv c g l) (hlinks : c'.links = c.links)
    (hbuf : ∀ i, (c'.buf i).dev = (c.buf i).dev ∧ (c'.buf i).blockno = (c.buf i).blockno)
    (hg : g'.released = g.released) (hnow : g.now ≤ g'.now) : BioInv c' g' l where
  ring := hlinks ▸ h.ring
  all := h.all
  order := hg ▸ h.order
  past := fun b => by
    rw [hg]
    exact (h.past b).trans hnow
  uniq := fun i j => by
    rw [(hbuf i).1, (hbuf j).1, (hbuf i).2, (hbuf j).2]
    exact h.uniq i j

theorem setRefcnt_names (c : Bcache Tid) (b : Fin NBUF) (n : BitVec 32) (i : Fin NBUF) :
    let x := (c.setBuf b { c.buf b with refcnt := n }).buf i
    x.ident = (c.buf i).ident ∧ x.data = (c.buf i).data := by
  by_cases hi : i = b
  · subst hi
    simp [Buf.ident]
  · simp [Bcache.setBuf_ne _ _ hi]

theorem dev_blockno_of_ident {x y : Buf Tid} (h : x.ident = y.ident) :
    x.dev = y.dev ∧ x.blockno = y.blockno := by
  simp only [Buf.ident, Prod.mk.injEq] at h
  exact ⟨h.1, h.2.1⟩

variable (h : BioInv c g l)
include h

theorem recount (n : BitVec 32) (hg : g'.released = g.released)
    (hnow : g.now ≤ g'.now) : BioInv (c.setBuf b { c.buf b with refcnt := n }) g' l :=
  h.keep rfl (fun i => dev_blockno_of_ident (setRefcnt_names c b n i).1) hg hnow

theorem recycle {dev blockno : Nat}
    (hmiss : ∀ i, (c.buf i).dev = dev → (c.buf i).blockno ≠ blockno) (hg : g'.released = g.released)
    (hnow : g.now ≤ g'.now) : BioInv (c.recycle b dev blockno) g' l where
  ring := h.ring
  all := h.all
  order := hg ▸ h.order
  past := fun b => by
    rw [hg]
    exact (h.past b).trans hnow
  uniq := by
    intro i j hi hdev hblk
    unfold Bcache.recycle at hi hdev hblk
    rcases eq_or_ne i b with hib | hib
    · subst hib
      by_contra hij
      rw [Bcache.setBuf_same, Bcache.setBuf_ne _ _ (Ne.symm hij)] at hdev hblk
      exact hmiss j hdev.symm hblk.symm
    · rw [Bcache.setBuf_ne _ _ hib] at hi hdev hblk
      rcases eq_or_ne j b with hjb | hjb
      · subst hjb
        rw [Bcache.setBuf_same] at hdev hblk
        exact absurd hblk (hmiss i hdev)
      · rw [Bcache.setBuf_ne _ _ hjb] at hdev hblk
        exact h.uniq i j hi hdev hblk

theorem move (hbuf : ∀ i, (c'.buf i).dev = (c.buf i).dev ∧ (c'.buf i).blockno = (c.buf i).blockno)
    (hlinks : c'.links = (c.links.unlink b).pushFront b) (hnow : g'.now = g.now + 1)
    (hg : g'.released = update g.released b (g.now + 1)) : BioInv c' g' (b :: l.erase b) where
  ring := by
    rw [hlinks]
    exact (h.ring.unlink (h.all b)).pushFront h.ring.nodup.not_mem_erase
  all := fun i => by
    by_cases hi : i = b
    · simp [hi]
    · simp [hi, List.mem_erase_of_ne hi, h.all i]
  order := by
    have hne : ∀ i ∈ l.erase b, i ≠ b := by
      rintro i hi rfl
      exact h.ring.nodup.not_mem_erase hi
    refine List.pairwise_cons.mpr ⟨fun i hi => .inl ?_, ?_⟩
    · rw [hg, update_self, update_of_ne (hne i hi)]
      exact Nat.lt_succ_of_le (h.past i)
    · refine List.Pairwise.imp_of_mem (fun {x y} hx hy hxy => ?_)
        (h.order.sublist List.erase_sublist)
      rwa [hg, update_of_ne (hne x hx), update_of_ne (hne y hy)]
  past := fun i => by
    rw [hg, hnow]
    by_cases hi : i = b
    · simp [hi]
    · rw [update_of_ne hi]
      exact (h.past i).trans (Nat.le_succ _)
  uniq := fun i j => by
    rw [(hbuf i).1, (hbuf j).1, (hbuf i).2, (hbuf j).2]
    exact h.uniq i j

theorem step (hs : c.step o = .done b c') : ∃ l', BioInv c' (g.note b (c'.buf b).refcnt o) l' := by
  cases o with
  | bget dev blockno =>
    rcases Bcache.bget_cases h.ring h.all hs with ⟨-, -, rfl⟩ | ⟨hmiss, -, -, rfl⟩
    · exact ⟨l, h.recount _ rfl (Nat.le_succ _)⟩
    · exact ⟨l, h.recycle hmiss rfl (Nat.le_succ _)⟩
  | bpin b | bunpin b =>
    cases hs
    exact ⟨l, h.recount _ rfl (Nat.le_succ _)⟩
  | brelse b =>
    cases hs
    have hbuf : ∀ i, ((c.brelse b).buf i).dev = (c.buf i).dev ∧
        ((c.brelse b).buf i).blockno = (c.buf i).blockno := fun i => by
      rw [Bcache.brelse_buf]
      exact dev_blockno_of_ident (setRefcnt_names c b _ i).1
    have hlinks := Bcache.brelse_links c b
    by_cases hzero : ((c.brelse b).buf b).refcnt = 0
    · rw [if_pos hzero] at hlinks
      exact ⟨b :: l.erase b, h.move hbuf hlinks rfl (if_pos hzero)⟩
    · rw [if_neg hzero] at hlinks
      exact ⟨l, h.keep hlinks hbuf (if_neg hzero) (Nat.le_succ _)⟩

end BioInv

theorem BioRun.inv (h : BioRun ok c g) : ∃ l, BioInv c g l := by
  induction h with
  | binit => exact ⟨_, BioInv.binit⟩
  | call _ _ hs ih =>
    obtain ⟨l, hl⟩ := ih
    exact hl.step hs

/-! ## Matched calls -/

/-- In matched runs the counts are exact. -/
def Counted (c : Bcache Tid) (g : BioTrail) : Prop :=
  ∀ i, (c.buf i).refcnt.toNat = g.held i + g.pinned i

namespace Counted

theorem toNat_add_one (h : n.toNat = k) (hk : k + 1 < 2 ^ 32) : (n + 1).toNat = k + 1 := by
  rw [BitVec.toNat_add, h]
  exact Nat.mod_eq_of_lt hk

theorem toNat_sub_one (h : n.toNat = k) (hk : 0 < k) : (n - 1).toNat = k - 1 := by
  have hone : (1 : BitVec 32).toNat = 1 := rfl
  rw [BitVec.toNat_sub, h, hone]
  omega

theorem setRefcnt (h : Counted c g) {x : Buf Tid} {g' : BioTrail}
    (hb : x.refcnt.toNat = g'.held b + g'.pinned b)
    (hne : ∀ i, i ≠ b → g'.held i + g'.pinned i = g.held i + g.pinned i) :
    Counted (c.setBuf b x) g' := by
  intro i
  by_cases hi : i = b
  · subst hi
    rw [Bcache.setBuf_same, hb]
  · rw [Bcache.setBuf_ne _ _ hi, h i, hne i hi]

theorem step (hl : BioInv c g l) (h : Counted c g) (ho : g.Matched o) (hs : c.step o = .done b c') :
    Counted c' (g.note b (c'.buf b).refcnt o) := by
  cases o with
  | bget dev blockno =>
    rcases Bcache.bget_cases hl.ring hl.all hs with ⟨-, -, rfl⟩ | ⟨-, hzero, -, rfl⟩
    · refine h.setRefcnt ?_ fun i hi => by simp [note, hi]
      rw [toNat_add_one (h b) (ho b)]
      simp only [note, update_self]
      omega
    · refine h.setRefcnt ?_ fun i hi => by simp [note, hi]
      have hcount : 0 = g.held b + g.pinned b := by simpa [hzero] using h b
      have hone : (1 : BitVec 32).toNat = 1 := rfl
      simp only [note, update_self, hone]
      omega
  | brelse b =>
    cases hs
    have hpos : 0 < g.held b := ho
    intro i
    rw [Bcache.brelse_buf]
    refine h.setRefcnt ?_ (fun i hi => by simp [note, hi]) i
    rw [toNat_sub_one (h b) (by omega)]
    simp only [note, update_self]
    omega
  | bpin b =>
    cases hs
    refine h.setRefcnt ?_ fun i hi => by simp [note, hi]
    rw [toNat_add_one (h b) ho]
    simp only [note, update_self]
    omega
  | bunpin b =>
    cases hs
    have hpos : 0 < g.pinned b := ho
    refine h.setRefcnt ?_ fun i hi => by simp [note, hi]
    rw [toNat_sub_one (h b) (by omega)]
    simp only [note, update_self]
    omega

end Counted

theorem BioRun.counted (hok : ∀ g o, ok g o → g.Matched o) (h : BioRun ok c g) : Counted c g := by
  induction h with
  | binit => exact fun _ => rfl
  | call h ho hs ih =>
    obtain ⟨l, hl⟩ := h.inv
    exact ih.step hl (hok _ _ ho) hs

/-! ## Results -/

/-- A call renames at most the buffer it is about, and only if that has the count zero. -/
theorem Bcache.ident_step (hl : Ring c.links l) (hmem : ∀ i, i ∈ l) (hs : c.step o = .done b c')
    (hi : (c.buf i).refcnt ≠ 0) :
    (c'.buf i).ident = (c.buf i).ident ∧ (c'.buf i).data = (c.buf i).data := by
  cases o with
  | bget dev blockno =>
    rcases Bcache.bget_cases hl hmem hs with ⟨-, -, rfl⟩ | ⟨-, hzero, -, rfl⟩
    · exact BioInv.setRefcnt_names c b _ i
    · have hib : i ≠ b := by
        rintro rfl
        exact hi hzero
      rw [Bcache.recycle, Bcache.setBuf_ne _ _ hib]
      exact ⟨rfl, rfl⟩
  | brelse b =>
    cases hs
    rw [Bcache.brelse_buf]
    exact BioInv.setRefcnt_names c b _ i
  | bpin b | bunpin b =>
    cases hs
    exact BioInv.setRefcnt_names c b _ i

/-- The structure of the buffer cache after any sequence of calls: `l` is the order of the ring, in
which every buffer stands once, those released last in front; a block is cached once; `bget` renames
only an unused buffer, the last of them. Where the calls are matched, no call renames a buffer that
is held or pinned, or touches its data. -/
theorem bcache_structure (ok : BioTrail → BioOp → Prop) {c : Bcache Tid} {g : BioTrail}
    (h : BioRun ok c g) :
    ∃ l, Ring c.links l ∧ (∀ b, l.count b = 1) ∧
      (∀ p, c.links.prev (c.links.next p) = p) ∧
      (l.Pairwise fun a b => g.released b < g.released a ∨ g.released b = 0) ∧
      (∀ i j, (c.buf i).dev ≠ 0 → (c.buf i).dev = (c.buf j).dev →
        (c.buf i).blockno = (c.buf j).blockno → i = j) ∧
      (∀ dev blockno b c', c.bget dev blockno = .done b c' →
        ∀ i, (c'.buf i).ident ≠ (c.buf i).ident → i = b ∧ (c.buf i).refcnt = 0 ∧
          ∃ m n, l = m ++ i :: n ∧ ∀ j ∈ n, (c.buf j).refcnt ≠ 0) ∧
      ((∀ g o, ok g o → g.Matched o) → ∀ o b c', c.step o = .done b c' →
        ∀ i, 0 < g.held i + g.pinned i →
          (c'.buf i).ident = (c.buf i).ident ∧ (c'.buf i).data = (c.buf i).data) := by
  obtain ⟨l, hl⟩ := h.inv
  refine ⟨l, hl.ring, fun b => List.count_eq_one_of_mem hl.ring.nodup (hl.all b), fun p => ?_,
    hl.order, hl.uniq, fun dev blockno b c' hs i hi => ?_, fun hok o b c' hs i hi => ?_⟩
  · refine hl.ring.prev_next ?_
    cases p with
    | none => exact .inl rfl
    | some b => exact .inr ⟨b, hl.all b, rfl⟩
  · rcases Bcache.bget_cases hl.ring hl.all hs with ⟨-, -, rfl⟩ | ⟨-, hzero, hlast, rfl⟩
    · exact absurd (BioInv.setRefcnt_names c b _ i).1 hi
    have hib : i = b := by
      by_contra hib
      rw [Bcache.recycle, Bcache.setBuf_ne _ _ hib] at hi
      exact hi rfl
    subst hib
    exact ⟨rfl, hzero, hlast⟩
  · refine Bcache.ident_step hl.ring hl.all hs fun hzero => ?_
    have hcount : 0 = g.held i + g.pinned i := by simpa [hzero] using h.counted hok i
    omega

/-- The first `bget` of a system: the next call does not rename the buffer it has taken. -/
theorem bcache_structure_first :
    ∃ c : Bcache Proc, Bcache.binit.step (.bget 1 2) = .done 0 c ∧
      ∀ o b c', c.step o = .done b c' → (c'.buf 0).ident = (1, 2, false) := by
  have hs : (Bcache.binit : Bcache Proc).step (.bget 1 2) =
      .done 0 (Bcache.binit.recycle 0 1 2) := rfl
  have hmatched : BioTrail.start.Matched (.bget 1 2) := fun b => by simp [start]
  have hrun : BioRun BioTrail.Matched _ _ := .call .binit hmatched hs
  obtain ⟨l, -, -, -, -, -, -, hkeep⟩ := bcache_structure BioTrail.Matched hrun
  refine ⟨_, hs, fun o b c' ho => ?_⟩
  exact (hkeep (fun _ _ h => h) o b c' ho 0 (by decide)).1

/-- Perform a call, if it does not panic. -/
def Bcache.act (r : Bcache Tid × BioTrail) (o : BioOp) : Bcache Tid × BioTrail :=
  match r.1.step o with
  | .done b c => (c, r.2.note b (c.buf b).refcnt o)
  | .blocked | .panic _ => r

theorem BioRun.foldl_act {r : Bcache Tid × BioTrail} (h : BioRun (fun _ _ => True) r.1 r.2)
    (os : List BioOp) :
    BioRun (fun _ _ => True) (os.foldl Bcache.act r).1 (os.foldl Bcache.act r).2 := by
  induction os generalizing r with
  | nil => exact h
  | cons o os ih =>
    refine ih ?_
    unfold Bcache.act
    split
    next hs => exact h.call trivial hs
    · exact h
    · exact h

/-- The calls that recovery makes for a committed transaction of block 50: it reads the header and
the logged block, installs block 50, which unpins a buffer that was never pinned, and clears the
header. Then a process reads block 50. -/
def recoveryCalls : List BioOp :=
  [.bget 1 2, .brelse 0, .bget 1 3, .bget 1 50, .bunpin 2, .brelse 1, .brelse 2, .bget 1 2,
    .brelse 0, .bget 1 50]

/-- The process holds the buffer of block 50 when another one recycles it for block 99. -/
theorem held_buffer_recycled :
    ∃ (c c' : Bcache Proc) (g : BioTrail), BioRun (fun _ _ => True) c g ∧ 0 < g.held 2 ∧
      (c.buf 2).ident = (1, 50, false) ∧ c.step (.bget 1 99) = .done 2 c' ∧
      (c'.buf 2).ident = (1, 99, false) := by
  refine ⟨_, _, _, BioRun.foldl_act (r := (.binit, .start)) .binit recoveryCalls, ?_, ?_, rfl, ?_⟩
  · decide +kernel
  · decide +kernel
  · decide +kernel

/-! ## The list of the block layer -/

/-- What `bcache.lock` protects of a buffer. -/
def Buf.key (x : Buf Tid) : Nat × Nat × BitVec 32 := (x.dev, x.blockno, x.refcnt)

/-- The cache has the buffers of the block layer, linked in the order of its list. -/
structure Bcache.Shows (c : Bcache Tid) (s : BState Tid) : Prop where
  key : ∀ i, (c.buf i).key = (s.buf i).key
  ring : Ring c.links s.lru
  all : ∀ i, i ∈ s.lru

namespace Bcache.Shows

variable {s s' : BState Tid} {x y : Buf Tid}

theorem boot (disk : Nat → Block) : (Bcache.binit : Bcache Tid).Shows (.boot disk) :=
  ⟨fun _ => rfl, BioInv.binit.ring, by simp [BState.boot]⟩

theorem put (h : c.Shows s) (hbuf : s'.buf = update s.buf i y) (hlru : s'.lru = s.lru)
    (hkey : x.key = y.key) : (c.setBuf i x).Shows s' where
  key j := by
    rw [hbuf]
    by_cases hj : j = i
    · simpa [hj] using hkey
    · simpa [setBuf_ne, hj] using h.key j
  ring := hlru ▸ h.ring
  all j := hlru ▸ h.all j

theorem keep (h : c.Shows s) (hbuf : s'.buf = update s.buf i y) (hlru : s'.lru = s.lru)
    (hkey : (s.buf i).key = y.key) : c.Shows s' := by
  have hput := h.put hbuf hlru ((h.key i).trans hkey)
  rwa [setBuf, update_eq_self] at hput

theorem recount (h : c.Shows s) (f : BitVec 32 → BitVec 32)
    (hbuf : s'.buf = update s.buf i { s.buf i with refcnt := f (s.buf i).refcnt })
    (hlru : s'.lru = s.lru) :
    (c.setBuf i { c.buf i with refcnt := f (c.buf i).refcnt }).Shows s' := by
  refine h.put hbuf hlru ?_
  have hkey := h.key i
  simp only [Buf.key, Prod.mk.injEq] at hkey ⊢
  simp [hkey]

variable [DecidableEq Tid]

variable (h : c.Shows s)
include h

/-- Both loops of `bget` stop at the same buffer. -/
theorem bget (t : Tid) (b : Nat) :
    (∃ m, s.bget t b = .panic m ∧ c.bget ROOTDEV b = .panic m) ∨
      ∃ i c' s', s.bget t b = .done () s' ∧ c.bget ROOTDEV b = .done i c' ∧ c'.Shows s' := by
  have hlen : s.lru.length ≤ NBUF := by simpa using h.ring.nodup.length_le_card
  have hkey := h.key
  simp only [Buf.key, Prod.mk.injEq] at hkey
  have hcached : s.lru.find? (fun i => (c.buf i).dev = ROOTDEV ∧ (c.buf i).blockno = b) =
      s.cached b := by
    simp only [hkey]
    congr 1
  have hvictim : s.lru.reverse.find? (fun i => (c.buf i).refcnt = 0) = s.victim := by
    simp only [hkey, BState.victim]
  unfold BState.bget Bcache.bget
  rw [h.ring.scan_next _ hlen, h.ring.scan_prev _ hlen, hcached, hvictim]
  cases s.cached b with
  | some i => exact .inr ⟨i, _, _, rfl, rfl, h.recount (· + 1) rfl rfl⟩
  | none =>
    cases s.victim with
    | some i => exact .inr ⟨i, _, _, rfl, rfl, h.put rfl rfl rfl⟩
    | none => exact .inl ⟨_, rfl, rfl⟩

theorem brelse (b : Nat) (i : Fin NBUF) : (c.brelse i).Shows (s.unref t b i) := by
  have hput : Shows _ ((s.setBuf i fun x => { x with refcnt := x.refcnt - 1 }).setPtr t
      ((s.ptr t).erase (b, i))) :=
    h.recount (· - 1) rfl rfl
  have hcnt := congrArg (·.2.2) (hput.key i)
  simp only [Buf.key] at hcnt
  simp only [Bcache.brelse, BState.unref, hcnt]
  split
  · refine ⟨hput.key, (h.ring.unlink (h.all i)).pushFront h.ring.nodup.not_mem_erase, fun j => ?_⟩
    by_cases hj : j = i <;> simp [hj, List.mem_erase_of_ne, h.all j]
  · exact hput

/-- A step of a process is a call of `bio.c`, or none that the links show. -/
theorem step {sb : Superblock} {γ : Type} {o : BOp γ} {r : γ}
    (hs : s.exec sb t γ o = .done r s') :
    c.Shows s' ∨ ∃ o i c', c.step o = .done i c' ∧ c'.Shows s' := by
  cases o with
  | bget b =>
    rcases h.bget t b with ⟨m, hm, -⟩ | ⟨i, c', s'', hs', hc, h'⟩
    · cases hm.symm.trans hs
    · cases hs'.symm.trans hs
      exact .inr ⟨.bget ROOTDEV b, i, c', hc, h'⟩
  | unref b =>
    obtain ⟨i, -, hs⟩ := BState.onBuf_eq_done.mp hs
    cases hs
    exact .inr ⟨.brelse i, i, _, rfl, h.brelse b i⟩
  | bunpin b =>
    obtain ⟨i, -, hs⟩ := BState.onBuf_eq_done.mp hs
    cases hs
    exact .inr ⟨.bunpin i, i, _, rfl, h.recount (· - 1) rfl rfl⟩
  | logAppend b =>
    obtain ⟨i, -, hs⟩ := BState.onBuf_eq_done.mp hs
    cases hs
    unfold BState.logAppend
    split
    · exact .inl h
    · exact .inr ⟨.bpin i, i, _, rfl, h.recount (· + 1) rfl rfl⟩
  | acquiresleep b | fill b | setData b d | bwrite b | releasesleep b =>
    obtain ⟨i, -, hs⟩ := BState.onBuf_eq_done.mp hs
    try split at hs
    all_goals cases hs
    all_goals first | exact .inl ⟨h.key, h.ring, h.all⟩ | exact .inl (h.keep rfl rfl rfl)
  | logCheck | beginOp | endOp | endCommit | logHeader | setLogHeader l | panic m =>
    simp only [BState.exec] at hs
    repeat' split at hs
    all_goals cases hs
    all_goals exact .inl ⟨h.key, h.ring, h.all⟩

end Bcache.Shows

/-- Processes interleave over a list of buffers as they would over the links. -/
theorem block_layer_refines [DecidableEq Tid] (sb : Superblock) {disk : Nat → Block}
    {s : BState Tid} (h : Relation.ReflTransGen
      (fun s s' => ∃ t γ o r, BState.exec sb t γ o s = .done r s') (.boot disk) s) :
    ∃ c g, BioRun (fun _ _ => True) c g ∧ c.Shows s ∧
      ∀ t b m, s.bget t b = .panic m ↔ c.bget ROOTDEV b = .panic m := by
  suffices ∃ c g, BioRun (fun _ _ => True) c g ∧ c.Shows s by
    obtain ⟨c, g, hrun, hc⟩ := this
    refine ⟨c, g, hrun, hc, fun t b m => ?_⟩
    rcases hc.bget t b with ⟨m, hs, hc⟩ | ⟨i, c', s', hs, hc, -⟩ <;> simp [hs, hc]
  induction h with
  | refl => exact ⟨_, _, .binit, .boot disk⟩
  | tail _ hstep ih =>
    obtain ⟨c, g, hrun, hc⟩ := ih
    obtain ⟨t, γ, o, r, hs⟩ := hstep
    rcases hc.step hs with hc | ⟨o, i, c', hcall, hc⟩
    · exact ⟨c, g, hrun, hc⟩
    · exact ⟨c', _, hrun.call trivial hcall, hc⟩

/-- One process logs block 5 and releases its buffer, which stays pinned, while another one obtains
block 6 and releases it. -/
theorem block_layer_refines_logged :
    ∃ s : BState Nat, s.lh = [5] ∧ s.ptr 0 = [] ∧ (s.buf 0).refcnt = 1 ∧ s.lru.head? = some 1 ∧
      ∃ c g, BioRun (fun _ _ => True) c g ∧ c.Shows s := by
  obtain ⟨c, g, hrun, hc, -⟩ := @block_layer_refines Nat _ mkfsSuperblock (fun _ _ => 0) _
    (.head ⟨0, _, .beginOp, _, rfl⟩ <| .head ⟨0, _, .bget 5, _, rfl⟩ <|
      .head ⟨1, _, .bget 6, _, rfl⟩ <| .head ⟨0, _, .acquiresleep 5, _, rfl⟩ <|
      .head ⟨0, _, .fill 5, _, rfl⟩ <| .head ⟨0, _, .logCheck, _, rfl⟩ <|
      .head ⟨0, _, .logAppend 5, _, rfl⟩ <| .head ⟨0, _, .releasesleep 5, _, rfl⟩ <|
      .head ⟨0, _, .unref 5, _, rfl⟩ <| .single ⟨1, _, .unref 6, _, rfl⟩)
  exact ⟨_, rfl, rfl, rfl, rfl, c, g, hrun, hc⟩

end Xv6
