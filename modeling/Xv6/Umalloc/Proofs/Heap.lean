import Xv6.Umalloc.Proofs.FreeList

/-!
# The memory of the allocator

`HeapInv h live free segs` divides the memory that `sbrk` gave, `segs`, among the blocks in use and
the free blocks: both together have exactly the units of `segs`, each once. That no unit is lost or
in two blocks, that blocks are disjoint and that the sizes add up are all read off this.
-/

namespace Xv6

open List (flatMap_cons append_assoc mem_append_right mem_append_left flatMap_append count_append
  length mem_append mem_cons mem_flatMap pairwise_cons perm_iff_count)

namespace Umalloc

namespace Block

variable {b c : Block} {live segs : List Block} {t : Block}

/-- A block has units, and starts where a unit may. -/
def Proper (b : Block) : Prop := 0 < b.size ∧ b.addr % 16 = 0

theorem mem_cells {a : Nat} : a ∈ b.cells ↔ ∃ i < b.size, b.addr + 16 * i = a := by simp [cells]

theorem addr_mem_cells (h : b.Proper) : b.addr ∈ b.cells := mem_cells.mpr ⟨0, h.1, rfl⟩

theorem cells_length : b.cells.length = b.size := by simp [cells]

theorem cells_nodup : b.cells.Nodup := by
  apply List.Nodup.map _ List.nodup_range
  intro i j hij
  have hij : b.addr + 16 * i = b.addr + 16 * j := hij
  omega

theorem disjoint_of_cells (hb : b.Proper) (hc : c.Proper) (h : b.cells.Disjoint c.cells) :
    b.Disjoint c := by
  unfold Disjoint limit
  by_contra hover
  rcases Nat.le_total b.addr c.addr with hle | hle
  · apply h _ (addr_mem_cells hc)
    have hb' := hb.2
    have hc' := hc.2
    exact mem_cells.mpr ⟨(c.addr - b.addr) / 16, by omega, by omega⟩
  · apply h (addr_mem_cells hb)
    have hb' := hb.2
    have hc' := hc.2
    exact mem_cells.mpr ⟨(b.addr - c.addr) / 16, by omega, by omega⟩

theorem Disjoint.symm (h : b.Disjoint c) : c.Disjoint b := Or.symm h

theorem Disjoint.addr_ne (h : b.Disjoint c) (hb : b.Proper) (hc : c.Proper) : b.addr ≠ c.addr := by
  have hb' := hb.1
  have hc' := hc.1
  unfold Disjoint limit at h
  omega

end Block

abbrev units (l : List Block) : Nat := (l.map Block.size).sum

theorem units_eq (l : List Block) : (l.flatMap Block.cells).length = units l := by
  simp only [List.length_flatMap, Block.cells_length]

theorem units_append (l l' : List Block) : units (l ++ l') = units l + units l' := by simp [units]

/-- The memory of `segs` is divided among the blocks in use and the free ones. -/
structure HeapInv (h : Heap) (live free segs : List Block) : Prop where
  list : FreeList h free
  size : ∀ b ∈ live, (h.mem b.addr).size = b.size
  proper : ∀ b ∈ live ++ free, b.Proper
  cells : ((live ++ free).flatMap Block.cells).Perm (segs.flatMap Block.cells)
  nodup : (segs.flatMap Block.cells).Nodup
  above : ∀ s ∈ segs, h.base + 16 ≤ s.addr
  base_pos : 0 < h.base
  total : units segs < 2 ^ 32

namespace HeapInv

variable {h : Heap} {free : List Block}

section

variable (hi : HeapInv h live free segs)
include hi

theorem disjoint : (live ++ free).Pairwise Block.Disjoint := by
  have hnodup := hi.cells.nodup_iff.mpr hi.nodup
  have hcells := (List.nodup_flatMap.mp hnodup).2
  apply hcells.imp_of_mem
  intro b c hb hc hbc
  exact Block.disjoint_of_cells (hi.proper b hb) (hi.proper c hc) hbc

theorem base_lt {b : Block} (hb : b ∈ live ++ free) : h.base + 16 ≤ b.addr := by
  have hmem : b.addr ∈ segs.flatMap Block.cells :=
    hi.cells.subset (mem_flatMap.mpr ⟨b, hb, Block.addr_mem_cells (hi.proper b hb)⟩)
  obtain ⟨s, hs, hsb⟩ := mem_flatMap.mp hmem
  obtain ⟨i, -, hi'⟩ := Block.mem_cells.mp hsb
  have habove := hi.above s hs
  omega

theorem units_eq : units live + units free = units segs := by
  have hlen := hi.cells.length_eq
  rw [Umalloc.units_eq, Umalloc.units_eq] at hlen
  rw [← hlen, units_append]

theorem perm {live' : List Block} (hp : live'.Perm live) : HeapInv h live' free segs where
  list := hi.list
  size b hb := hi.size b (hp.subset hb)
  proper b hb := hi.proper b ((hp.append_right free).subset hb)
  cells := ((hp.append_right free).flatMap_right Block.cells).trans hi.cells
  nodup := hi.nodup
  above := hi.above
  base_pos := hi.base_pos
  total := hi.total

end

end HeapInv

variable {l : List Block} {c : Block}

/-- The last block of an ascending list below an address that no block of it has. -/
theorem exists_place {a : Nat} (hl : (b :: l).Pairwise Block.Below) (hb : b.addr < a)
    (hne : ∀ c ∈ l, c.addr ≠ a) :
    ∃ pre t post, b :: l = pre ++ t :: post ∧ t.addr < a ∧ ∀ c ∈ post, a < c.addr := by
  induction l generalizing b with
  | nil => exact ⟨[], b, [], rfl, hb, by simp⟩
  | cons c l ih =>
    obtain ⟨hbc, hcl⟩ := pairwise_cons.mp hl
    by_cases hc : c.addr < a
    · obtain ⟨pre, t, post, heq, ht, hpost⟩ := ih hcl hc fun d hd => hne d (by simp [hd])
      exact ⟨b :: pre, t, post, by rw [heq]; rfl, ht, hpost⟩
    have hac : a < c.addr := Nat.lt_of_le_of_ne (by omega) (hne c (by simp)).symm
    refine ⟨[], b, c :: l, rfl, hb, ?_⟩
    intro d hd
    rcases mem_cons.mp hd with rfl | hd
    · exact hac
    · have hcd : c.limit < d.addr := (pairwise_cons.mp hcl).1 d hd
      unfold Block.limit at hcd
      omega

theorem splice_cells :
    (splice t b l).flatMap Block.cells = t.cells ++ b.cells ++ l.flatMap Block.cells := by
  have habove := above_cells (b := b) (l := l)
  simp only [flatMap_cons] at habove
  unfold splice
  split
  case isTrue htouch =>
    rw [flatMap_cons, Block.join_cells (htouch.trans above_addr.symm), append_assoc,
      habove, append_assoc]
  case isFalse => rw [flatMap_cons, flatMap_cons, habove, append_assoc]

theorem splice_length_le : (splice t b l).length ≤ l.length + 2 := by
  have hlen := (above_suffix (b := b) (l := l)).length_le
  unfold splice
  split <;> simp only [List.length_cons] <;> omega

theorem exists_mem_splice : ∃ c ∈ splice t b l, b.size ≤ c.size := by
  have hle := above_size_le (b := b) (l := l)
  unfold splice
  split
  · exact ⟨_, List.mem_cons_self, Nat.le_trans hle (Nat.le_add_left _ _)⟩
  · exact ⟨_, List.mem_cons_of_mem _ List.mem_cons_self, hle⟩

/-- Memory that `sbrk` may give: aligned, and above all that it gave before and `base`. -/
structure Fresh (base : Nat) (segs : List Block) (b : Block) : Prop where
  aligned : b.addr % 16 = 0
  base_lt : base + 16 ≤ b.addr
  above : ∀ s ∈ segs, s.limit ≤ b.addr

theorem FreeList.ne_bottom {h h' : Heap} (hf : FreeList h' l) (hbase : h'.base = h.base)
    (hc : c ∈ l) : c ≠ h.bottom := by
  rintro rfl
  have hapart : h'.base < h.base := (pairwise_cons.mp hf.apart).1 _ hc
  omega

namespace HeapInv

variable {h : Heap} {free : List Block}

theorem place (hi : HeapInv h (b :: live) free segs) :
    ∃ pre t post, h.bottom :: free = pre ++ t :: post ∧ t.addr < b.addr ∧ t.limit ≤ b.addr ∧
      (∀ c ∈ post, b.addr < c.addr) ∧ ∀ c ∈ post, b.limit ≤ c.addr := by
  have hbp : b.Proper := hi.proper b (by simp)
  have hdisj : ∀ c ∈ free, b.Disjoint c := by
    intro c hc
    exact (pairwise_cons.mp hi.disjoint).1 c (mem_append_right live hc)
  have hbase := hi.base_lt (b := b) (by simp)
  obtain ⟨pre, t, post, heq, ht, hpost⟩ := exists_place hi.list.apart
    (show h.base < b.addr by omega) fun c hc =>
      ((hdisj c hc).addr_ne hbp (hi.proper c (mem_append_right _ hc))).symm
  refine ⟨pre, t, post, heq, ht, ?_, hpost, ?_⟩
  · have htmem : t ∈ h.bottom :: free := by rw [heq]; simp
    rcases mem_cons.mp htmem with rfl | htmem
    · exact Nat.le_of_lt ht
    · have hlim := hdisj t htmem
      unfold Block.Disjoint Block.limit at *
      omega
  · intro c hc
    have hmem : c ∈ h.bottom :: free := by rw [heq]; simp [hc]
    have hlt := hpost c hc
    rcases mem_cons.mp hmem with rfl | hmem
    · have hlow : b.addr < h.base := hlt
      omega
    · have hlim := hdisj c hmem
      unfold Block.Disjoint Block.limit at *
      omega

section
variable (hi : HeapInv h live free segs)
include hi

theorem member_ne {pre post : List Block}
    (heq : h.bottom :: free = pre ++ t :: post) (hb : b ∈ live) : b.addr ≠ t.addr := by
  have htmem : t ∈ h.bottom :: free := by rw [heq]; simp
  rcases mem_cons.mp htmem with rfl | htmem
  · have hbase := hi.base_lt (mem_append_left free hb)
    show b.addr ≠ h.base
    omega
  · exact ((List.pairwise_append.mp hi.disjoint).2.2 b hb t htmem).addr_ne
      (hi.proper b (mem_append_left _ hb)) (hi.proper t (mem_append_right _ htmem))

theorem mem_proper (hc : c ∈ h.bottom :: free) : c = h.bottom ∨ c.Proper :=
  (mem_cons.mp hc).imp_right fun hc => hi.proper c (mem_append_right _ hc)

theorem splice_proper {pre post : List Block}
    (heq : h.bottom :: free = pre ++ t :: post) (ht : t.addr < b.addr) (hb : b.Proper) :
    ∀ c ∈ pre ++ splice t b post, c = h.bottom ∨ c.Proper := by
  have habove : (Umalloc.above b post).1.Proper :=
    ⟨Nat.lt_of_lt_of_le hb.1 above_size_le, by rw [above_addr]; exact hb.2⟩
  have hrest : ∀ c ∈ (Umalloc.above b post).2, c = h.bottom ∨ c.Proper := by
    intro c hc
    exact hi.mem_proper (by rw [heq]; simp [above_suffix.subset hc])
  have htmem : t = h.bottom ∨ t.Proper := hi.mem_proper (by rw [heq]; simp)
  intro c hc
  rcases mem_append.mp hc with hc | hc
  · exact hi.mem_proper (by rw [heq]; simp [hc])
  unfold splice at hc
  split at hc
  case isTrue htouch =>
    rcases mem_cons.mp hc with rfl | hc
    · rcases htmem with rfl | htp
      · exact absurd htouch (Nat.ne_of_lt ht)
      · exact .inr ⟨Nat.lt_of_lt_of_le htp.1 (Nat.le_add_right _ _), htp.2⟩
    · exact hrest c hc
  case isFalse =>
    rcases mem_cons.mp hc with rfl | hc
    · exact htmem
    · rcases mem_cons.mp hc with rfl | hc
      · exact .inr habove
      · exact hrest c hc

end

theorem free_spec (hi : HeapInv h (b :: live) free segs) {fuel : Nat}
    (hfuel : free.length + 1 ≤ fuel) :
    ∃ h' free', Umalloc.free fuel (b.addr + 16) h = some h' ∧ h'.base = h.base ∧
      HeapInv h' live free' segs ∧ (∃ c ∈ free', b.size ≤ c.size) ∧
      free'.length ≤ free.length + 1 := by
  obtain ⟨pre, t, post, heq, ht, hlow, hpost, hhigh⟩ := hi.place
  have hbp : b.Proper := hi.proper b (by simp)
  have hbsize : (h.mem b.addr).size = b.size := hi.size b (by simp)
  have hunits : units free = units pre + (t.size + units post) := by
    have := congrArg units heq
    simpa [units, Heap.bottom] using this
  have htotal := hi.units_eq
  have hlt := hi.total
  simp only [units, List.map_cons, List.sum_cons] at hunits htotal hlt
  obtain ⟨h', free', hrun, hbase', hother, heq', hlist⟩ :=
    hi.list.free_spec heq hbsize ht hpost (by omega) hlow hhigh hfuel
  refine ⟨h', free', hrun, hbase', ⟨hlist, ?_, ?_, ?_, hi.nodup, hbase'.symm ▸ hi.above,
    hbase'.symm ▸ hi.base_pos, hi.total⟩, ?_, ?_⟩
  · -- the headers of the other blocks in use are not written
    intro c hc
    have hcp : c.Proper := hi.proper c (by simp [hc])
    have hcb := ((pairwise_cons.mp hi.disjoint).1 c (by simp [hc])).symm.addr_ne hcp hbp
    rw [hother _ hcb (hi.member_ne heq (by simp [hc]))]
    exact hi.size c (by simp [hc])
  · intro c hc
    rcases mem_append.mp hc with hc | hc
    · exact hi.proper c (by simp [hc])
    · have hmem : c ∈ pre ++ splice t b post := by rw [← heq']; simp [hc]
      exact (hi.splice_proper heq ht hbp c hmem).resolve_left (hlist.ne_bottom hbase' hc)
  · -- the units of the list are those before and those of `b`
    have hold : (h.bottom :: free).flatMap Block.cells = free.flatMap Block.cells := by
      simp [Heap.bottom, Block.cells]
    have hnew : (h.bottom :: free').flatMap Block.cells = free'.flatMap Block.cells := by
      simp [Heap.bottom, Block.cells]
    refine List.Perm.trans ?_ hi.cells
    rw [flatMap_append, ← hnew, heq', flatMap_append, splice_cells, flatMap_append,
      flatMap_cons, ← hold, heq, flatMap_append, flatMap_cons]
    apply perm_iff_count.mpr
    intro a
    simp only [count_append]
    omega
  · obtain ⟨c, hc, hle⟩ := exists_mem_splice
    have hmem' : c ∈ h.bottom :: free' := by rw [heq']; exact mem_append_right pre hc
    rcases mem_cons.mp hmem' with rfl | hmem'
    · have hzero : b.size ≤ 0 := hle
      have hpos := hbp.1
      omega
    · exact ⟨c, hmem', hle⟩
  · have hlen := congrArg length heq
    have hlen' := congrArg length heq'
    have hle := splice_length_le (t := t) (b := b) (l := post)
    simp only [List.length_cons, List.length_append] at hlen hlen'
    omega

theorem taken (hi : HeapInv h live free segs) {h' : Heap} {free' : List Block}
    (hbase : h'.base = h.base) (hlist : FreeList h' free') (hb : b.Proper)
    (hsize : (h'.mem b.addr).size = b.size) (hother : ∀ c ∈ live, h'.mem c.addr = h.mem c.addr)
    (hproper : ∀ c ∈ free', c.Proper)
    (hcells : (b.cells ++ free'.flatMap Block.cells).Perm (free.flatMap Block.cells)) :
    HeapInv h' (b :: live) free' segs where
  list := hlist
  size c hc := by
    rcases mem_cons.mp hc with rfl | hc
    · exact hsize
    · rw [hother c hc]
      exact hi.size c hc
  proper c hc := by
    rcases mem_append.mp hc with hc | hc
    · rcases mem_cons.mp hc with rfl | hc
      · exact hb
      · exact hi.proper c (mem_append_left _ hc)
    · exact hproper c hc
  cells := by
    refine List.Perm.trans ?_ hi.cells
    rw [perm_iff_count] at hcells ⊢
    intro a
    have hcount := hcells a
    simp only [flatMap_append, flatMap_cons, count_append] at hcount ⊢
    omega
  nodup := hi.nodup
  above := hbase.symm ▸ hi.above
  base_pos := hbase.symm ▸ hi.base_pos
  total := hi.total

/-- The units of the list are those of its blocks, `base` has none. -/
theorem flatMap_bottom (l : List Block) :
    (h.bottom :: l).flatMap Block.cells = l.flatMap Block.cells := by
  simp [Heap.bottom, Block.cells]

theorem mem_free_of_size (ht : t ∈ h.bottom :: free) (hsize : 0 < t.size) : t ∈ free := by
  rcases mem_cons.mp ht with rfl | ht
  · exact absurd hsize (Nat.lt_irrefl 0)
  · exact ht

section

variable {pre post : List Block} {p : Block} {n : Nat}

section
variable (hi : HeapInv h live free segs) (heq : h.bottom :: free = pre ++ p :: t :: post)
  (hn : 0 < n)
include hi heq hn

theorem carve_exact (hfit : t.size = n) :
    ∃ h' free', carve h n p.addr t.addr = (t.addr + 16, h') ∧ h'.base = h.base ∧
      HeapInv h' (t :: live) free' segs := by
  have htmem : t ∈ free := mem_free_of_size (by rw [heq]; simp) (by omega)
  have htp : t.Proper := hi.proper t (mem_append_right _ htmem)
  have htsize : (h.mem t.addr).size = t.size := hi.list.stored.size t (by simp [htmem])
  have hpt : p.addr < t.addr := hi.list.addr_lt heq (by simp)
  obtain ⟨free', heq', hlist⟩ := hi.list.unlink heq
    { h with mem := setPtr h.mem p.addr (h.mem t.addr).ptr, freep := p.addr } rfl rfl rfl
  refine ⟨_, free', if_pos (htsize.trans hfit), rfl, hi.taken rfl hlist htp ?_ ?_ ?_ ?_⟩
  · show (setPtr _ _ _ _).size = t.size
    rw [setPtr_of_ne _ _ (Nat.ne_of_gt hpt)]
    exact htsize
  · intro c hc
    exact setPtr_of_ne _ _ (hi.member_ne heq hc)
  · intro c hc
    have hmem : c ∈ h.bottom :: free := by
      have hmem' : c ∈ pre ++ p :: post := by rw [← heq']; simp [hc]
      rw [heq]
      simp only [mem_append, mem_cons] at hmem' ⊢
      tauto
    exact (hi.mem_proper hmem).resolve_left (hlist.ne_bottom rfl hc)
  · rw [← flatMap_bottom free, ← flatMap_bottom free', heq, heq']
    apply perm_iff_count.mpr
    intro a
    simp only [flatMap_append, flatMap_cons, count_append]
    omega

theorem carve_split (hfit : n < t.size) :
    ∃ h' free', carve h n p.addr t.addr = (t.addr + 16 * (t.size - n) + 16, h') ∧
      h'.base = h.base ∧
      HeapInv h' (⟨t.addr + 16 * (t.size - n), n⟩ :: live) free' segs := by
  have heq2 : h.bottom :: free = (pre ++ [p]) ++ t :: post := by rw [heq]; simp
  have htmem : t ∈ free := mem_free_of_size (by rw [heq]; simp) (by omega)
  have htp : t.Proper := hi.proper t (mem_append_right _ htmem)
  have htsize : (h.mem t.addr).size = t.size := hi.list.stored.size t (by simp [htmem])
  have hlt : t.size < 2 ^ 32 := by
    have hunits : units free = units pre + (p.size + (t.size + units post)) := by
      have := congrArg units heq
      simpa [units, Heap.bottom] using this
    have htotal := hi.units_eq
    have hsum := hi.total
    omega
  obtain ⟨k, hk⟩ : ∃ k, k = t.size - n := ⟨_, rfl⟩
  have hkmod : k % 2 ^ 32 = k := Nat.mod_eq_of_lt (by omega)
  have hnmod : n % 2 ^ 32 = n := Nat.mod_eq_of_lt (by omega)
  have hne : t.addr ≠ t.addr + 16 * k := by omega
  have hrun : carve h n p.addr t.addr = (t.addr + 16 * k + 16,
      { h with
        mem := setSize (setSize h.mem t.addr k) (t.addr + 16 * k) n
        freep := p.addr }) := by
    unfold carve
    rw [htsize, if_neg (Nat.ne_of_gt hfit), ← hk]
    simp only [setSize_self, hkmod]
  rw [← hk]
  have hother : ∀ a, a ≠ t.addr → a ≠ t.addr + 16 * k →
      setSize (setSize h.mem t.addr k) (t.addr + 16 * k) n a = h.mem a := by
    intro a hat hak
    rw [setSize_of_ne _ _ hak, setSize_of_ne _ _ hat]
  obtain ⟨free', heq', hlist⟩ := hi.list.shrink heq
    { h with mem := setSize (setSize h.mem t.addr k) (t.addr + 16 * k) n, freep := p.addr }
    (by omega) (by omega) rfl rfl
    (by simp only [setSize_of_ne _ _ hne, setSize_self, hkmod]) hother
  refine ⟨_, free', hrun, rfl, hi.taken rfl hlist ⟨hn, ?_⟩ ?_ ?_ ?_ ?_⟩
  · show (t.addr + 16 * k) % 16 = 0
    have haligned := htp.2
    omega
  · simp only [setSize_self, hnmod]
  · intro c hc
    apply hother _ (hi.member_ne heq2 hc)
    -- the new header lies inside the block `t`
    have hdisj := (List.pairwise_append.mp hi.disjoint).2.2 c hc t htmem
    unfold Block.Disjoint Block.limit at hdisj
    omega
  · intro c hc
    have hmem' : c ∈ pre ++ p :: ⟨t.addr, k⟩ :: post := by rw [← heq']; simp [hc]
    simp only [mem_append, mem_cons] at hmem'
    by_cases hct : c = ⟨t.addr, k⟩
    · rw [hct]
      exact ⟨by show 0 < k; omega, htp.2⟩
    · have hmem : c ∈ h.bottom :: free := by
        rw [heq]
        simp only [mem_append, mem_cons]
        tauto
      exact (hi.mem_proper hmem).resolve_left (hlist.ne_bottom rfl hc)
  · have hjoin : t.cells = (⟨t.addr, k⟩ : Block).cells ++ (⟨t.addr + 16 * k, n⟩ : Block).cells := by
      have hsize : k + n = t.size := by omega
      rw [← Block.join_cells (by rfl)]
      show t.cells = (⟨t.addr, k + n⟩ : Block).cells
      rw [hsize]
    rw [← flatMap_bottom free, ← flatMap_bottom free', heq, heq']
    apply perm_iff_count.mpr
    intro a
    simp only [flatMap_append, flatMap_cons, count_append, hjoin]
    omega

theorem carve_spec (hfit : n ≤ t.size) :
    ∃ h' b free', carve h n p.addr t.addr = (b.addr + 16, h') ∧ b.size = n ∧ h'.base = h.base ∧
      HeapInv h' (b :: live) free' segs := by
  rcases Nat.eq_or_lt_of_le hfit with hexact | hlt
  · obtain ⟨h', free', hrun, hbase, hi'⟩ := hi.carve_exact heq hn hexact.symm
    exact ⟨h', t, free', hrun, hexact.symm, hbase, hi'⟩
  · obtain ⟨h', free', hrun, hbase, hi'⟩ := hi.carve_split heq hn hlt
    exact ⟨h', _, free', hrun, rfl, hbase, hi'⟩

end

end

theorem lt_fresh (hi : HeapInv h live free segs) (hb : Fresh h.base segs b)
    (hc : c ∈ live ++ free) : c.addr < b.addr := by
  have hmem : c.addr ∈ segs.flatMap Block.cells :=
    hi.cells.subset (mem_flatMap.mpr ⟨c, hc, Block.addr_mem_cells (hi.proper c hc)⟩)
  obtain ⟨s, hs, hsc⟩ := mem_flatMap.mp hmem
  obtain ⟨i, hlt, heq⟩ := Block.mem_cells.mp hsc
  have hlim := hb.above s hs
  unfold Block.limit at hlim
  omega

theorem grow (hi : HeapInv h live free segs) (hb : Fresh h.base segs b) (hpos : 0 < b.size)
    (htotal : units segs + b.size < 2 ^ 32) :
    HeapInv (setHeader h b.addr b.size) (b :: live) free (segs ++ [b]) where
  list := by
    refine ⟨hi.list.stored.congr fun c hc => setSize_of_ne _ _ ?_, hi.list.apart, hi.list.rover⟩
    rcases mem_cons.mp hc with rfl | hc
    · have hbase := hb.base_lt
      show h.base ≠ b.addr
      omega
    · exact Nat.ne_of_lt (hi.lt_fresh hb (mem_append_right _ hc))
  size c hc := by
    rcases mem_cons.mp hc with rfl | hc
    · show (setSize _ _ _ _).size = c.size
      rw [setSize_self]
      exact Nat.mod_eq_of_lt (by omega)
    · have hne := Nat.ne_of_lt (hi.lt_fresh hb (mem_append_left _ hc))
      show (setSize _ _ _ _).size = c.size
      rw [setSize_of_ne _ _ hne]
      exact hi.size c hc
  proper c hc := by
    rcases mem_cons.mp hc with rfl | hc
    · exact ⟨hpos, hb.aligned⟩
    · exact hi.proper c hc
  cells := by
    have hcells := hi.cells
    rw [perm_iff_count] at hcells ⊢
    intro a
    have hcount := hcells a
    simp only [flatMap_append, flatMap_cons, List.flatMap_nil, count_append,
      List.append_nil] at hcount ⊢
    omega
  nodup := by
    rw [flatMap_append, List.nodup_append]
    refine ⟨hi.nodup, by simpa using Block.cells_nodup, ?_⟩
    intro a ha a' ha' heq
    obtain ⟨s, hs, hsa⟩ := mem_flatMap.mp ha
    obtain ⟨i, hi', hai⟩ := Block.mem_cells.mp hsa
    obtain ⟨j, -, haj⟩ := Block.mem_cells.mp (by simpa using ha')
    have hlim := hb.above s hs
    unfold Block.limit at hlim
    omega
  above s hs := by
    rcases mem_append.mp hs with hs | hs
    · exact hi.above s hs
    · rw [List.mem_singleton.mp hs]
      exact hb.base_lt
  base_pos := hi.base_pos
  total := by
    rw [units_append]
    simpa [units] using htotal

theorem init (hpos : 0 < h.base) :
    HeapInv { h with
      mem := setSize (setPtr h.mem h.base h.base) h.base 0
      freep := h.base } [] [] [] where
  list := by
    refine ⟨Stored.cons .nil ?_, by simp, by simp [Heap.bottom]⟩
    simp [Heap.bottom]
  size := by simp
  proper := by simp
  cells := List.Perm.refl _
  nodup := List.nodup_nil
  above := by simp
  base_pos := hpos
  total := by decide

end HeapInv

end Umalloc

end Xv6
