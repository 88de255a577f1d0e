import Xv6.Umalloc.Proofs.Heap

/-!
# Calls of `malloc` and `free`

`malloc` looks once around the list, takes the first block that is large enough, and where there is
none asks `sbrk` for a block that is. Over a run of calls, with an `sbrk` that gives fresh memory,
the memory stays divided among the blocks in use and the free ones, as long as all of it together
has fewer than `2 ^ 32` units: the sizes are `uint`s, and two blocks that are joined have the sum.
-/

namespace Xv6.Umalloc

/-- What `malloc` does after a round over the list without a block that is large enough. -/
def mallocMore (n fuel : Nat) (h : Heap) (os : List (Option Nat)) (got : List Block) :
    Option Out :=
  match morecore fuel n (os.headD none) h with
  | none => none
  | some (q, h) =>
    let got := got ++ (os.headD none).toList.map (Block.mk · (moreUnits n))
    if q = 0 then some ⟨0, h, got⟩ else mallocLoop n fuel h os.tail got q (h.mem q).ptr

/-! ### The bound on the rounds -/

section

variable {fuel fuel' n p prevp : Nat} {got : List Block} {h : Heap} {os : List (Option Nat)}
  {out : Out}

section
variable (hle : fuel ≤ fuel')
include hle

theorem freeLoop_mono {m : Nat → Header} {bp q : Nat}
    (h : freeLoop m bp fuel p = some q) : freeLoop m bp fuel' p = some q := by
  induction fuel generalizing fuel' p with
  | zero => cases h
  | succ fuel ih =>
    obtain ⟨k, rfl⟩ : ∃ k, fuel' = k + 1 := ⟨fuel' - 1, by omega⟩
    rw [freeLoop] at h ⊢
    split_ifs at h ⊢
    · exact h
    · exact h
    · exact ih (by omega) h

theorem free_mono {ap : Nat} {h' : Heap} (hrun : free fuel ap h = some h') :
    free fuel' ap h = some h' := by
  obtain ⟨q, hq, hrest⟩ := Option.bind_eq_some_iff.mp hrun
  exact Option.bind_eq_some_iff.mpr ⟨q, freeLoop_mono hle hq, hrest⟩

theorem morecore_mono {nu : Nat} {answer : Option Nat} {r : Nat × Heap}
    (hrun : morecore fuel nu answer h = some r) : morecore fuel' nu answer h = some r := by
  cases answer with
  | none => exact hrun
  | some p =>
    obtain ⟨h', hfree, hrest⟩ := Option.bind_eq_some_iff.mp hrun
    exact Option.bind_eq_some_iff.mpr ⟨h', free_mono hle hfree, hrest⟩

theorem mallocLoop_mono (hrun : mallocLoop n fuel h os got prevp p = some out) :
    mallocLoop n fuel' h os got prevp p = some out := by
  induction fuel generalizing fuel' h os got prevp p with
  | zero => cases hrun
  | succ fuel ih =>
    obtain ⟨k, rfl⟩ : ∃ k, fuel' = k + 1 := ⟨fuel' - 1, by omega⟩
    rw [mallocLoop] at hrun ⊢
    split_ifs at hrun ⊢
    · exact hrun
    · cases hmore : morecore fuel n (os.headD none) h with
      | none => rw [hmore] at hrun; cases hrun
      | some r =>
        rw [hmore] at hrun
        rw [morecore_mono (by omega) hmore]
        dsimp only at hrun ⊢
        split_ifs at hrun ⊢
        · exact hrun
        · exact ih (by omega) hrun
    · exact ih (by omega) hrun

end

theorem mallocLoop_got (hrun : mallocLoop n fuel h os got prevp p = some out) :
    got <+: out.got := by
  induction fuel generalizing h os got prevp p with
  | zero => cases hrun
  | succ fuel ih =>
    rw [mallocLoop] at hrun
    split_ifs at hrun
    · have hgot := congrArg Out.got (Option.some.inj hrun)
      exact ⟨[], (List.append_nil got).trans hgot⟩
    · cases hmore : morecore fuel n (os.headD none) h with
      | none => rw [hmore] at hrun; cases hrun
      | some r =>
        rw [hmore] at hrun
        dsimp only at hrun
        split_ifs at hrun
        · rw [← Option.some.inj hrun]
          exact List.prefix_append _ _
        · exact (List.prefix_append _ _).trans (ih hrun)
    · exact ih hrun

end

namespace FreeList

variable {h : Heap} {l : List Block} {n : Nat}

theorem rotated (hf : FreeList h l) {x y : List Block} {f : Block}
    (heq : h.bottom :: l = x ++ f :: y) :
    Linked (fun a => (h.mem a).ptr) f.addr ((f :: y ++ x).map Block.addr) := by
  have hlinked := hf.stored.linked
  rw [heq] at hlinked
  cases x with
  | nil =>
    have hbase : f.addr = h.base := by rw [← (List.cons.inj heq).1]; rfl
    rw [List.append_nil, hbase]
    exact hlinked
  | cons c x =>
    have hbase : h.base = c.addr := by rw [← (List.cons.inj heq).1]; rfl
    rw [hbase, List.map_append] at hlinked
    rw [List.map_append]
    exact hlinked.rotate

theorem round (hf : FreeList h l) : ∃ f V, f.addr = h.freep ∧ f ∈ h.bottom :: l ∧
    V.length = l.length ∧ (∀ c ∈ V, c ∈ h.bottom :: l ∧ c.addr ≠ f.addr) ∧
    (∀ c ∈ h.bottom :: l, c = f ∨ c ∈ V) ∧
    Linked (fun a => (h.mem a).ptr) f.addr ((f :: V).map Block.addr) := by
  obtain ⟨f, hfmem, hfaddr⟩ := List.mem_map.mp hf.rover
  obtain ⟨x, y, heq⟩ := List.append_of_mem hfmem
  have hlen := congrArg List.length heq
  simp only [List.length_cons, List.length_append] at hlen
  refine ⟨f, y ++ x, hfaddr, hfmem, by simp only [List.length_append]; omega, ?_, ?_, ?_⟩
  · intro c hc
    have hmem : c ∈ h.bottom :: l := by
      rw [heq]
      simp only [List.mem_append, List.mem_cons] at hc ⊢
      tauto
    refine ⟨hmem, ?_⟩
    rcases List.mem_append.mp hc with hc | hc
    · exact Nat.ne_of_gt (hf.addr_lt heq hc)
    · have hlim := (hf.apart_at heq).1 c hc
      unfold Block.limit at hlim
      omega
  · intro c hc
    rw [heq] at hc
    simp only [List.mem_append, List.mem_cons] at hc ⊢
    tauto
  · have hrot := hf.rotated heq
    exact hrot

/-- The loop of `malloc` moves on at a block that is too small, unless it is the rover. -/
theorem mallocLoop_next {a prev fuel : Nat} {os : List (Option Nat)} {got : List Block}
    (hsmall : (h.mem a).size < n) (hne : a ≠ h.freep) :
    mallocLoop n (fuel + 1) h os got prev a = mallocLoop n fuel h os got a (h.mem a).ptr := by
  rw [mallocLoop, if_neg (Nat.not_le.mpr hsmall), if_neg hne]

theorem pred_of_next (hf : FreeList h l) {p t : Block} (hp : p ∈ h.bottom :: l)
    (ht : t ∈ h.bottom :: l) (hpos : 0 < t.size) (hnext : (h.mem p.addr).ptr = t.addr) :
    ∃ pre post, h.bottom :: l = pre ++ p :: t :: post := by
  obtain ⟨pre, rest, heq⟩ := List.append_of_mem hp
  rw [hf.next_eq heq] at hnext
  have hinj : ∀ c ∈ h.bottom :: l, c.addr = t.addr → c = t := by
    intro c hc hct
    obtain ⟨x, y, heq'⟩ := List.append_of_mem hc
    rw [heq', List.mem_append, List.mem_cons] at ht
    rcases ht with hx | rfl | hy
    · have hlim := (hf.apart_at heq').1 t hx
      unfold Block.limit at hlim
      omega
    · rfl
    · exact absurd hct (Nat.ne_of_lt (hf.addr_lt heq' hy))
  cases rest with
  | nil =>
    have hbot := hinj h.bottom (by simp) hnext
    rw [← hbot] at hpos
    exact absurd hpos (Nat.lt_irrefl 0)
  | cons c rest =>
    have hc := hinj c (by rw [heq]; simp) hnext
    exact ⟨pre, rest, by rw [heq, hc]⟩

theorem mallocLoop_round (hf : FreeList h l) (hn : 0 < n) :
    (∃ pre p t post, h.bottom :: l = pre ++ p :: t :: post ∧ n ≤ t.size ∧
      ∀ fuel os got, l.length + 1 ≤ fuel →
        mallocLoop n fuel h os got h.freep (h.mem h.freep).ptr =
          some ⟨(carve h n p.addr t.addr).1, (carve h n p.addr t.addr).2, got⟩) ∨
    ((∀ c ∈ l, c.size < n) ∧ ∀ fuel os got,
      mallocLoop n (l.length + (fuel + 1)) h os got h.freep (h.mem h.freep).ptr =
        mallocMore n fuel h os got) := by
  obtain ⟨f, V, hrover, hfmem, hlen, hV, hall, hlinked⟩ := hf.round
  rw [← hrover]
  have hsize : ∀ c ∈ h.bottom :: l, (h.mem c.addr).size = c.size := hf.stored.size
  -- the loop moves on along a stretch of blocks that are too small
  have hskip : ∀ U stop, (∀ c ∈ U, c ∈ V ∧ c.size < n) →
      Linked (fun a => (h.mem a).ptr) stop ((f :: U).map Block.addr) → ∀ fuel os got,
      mallocLoop n (U.length + fuel) h os got f.addr (h.mem f.addr).ptr =
        mallocLoop n fuel h os got ((U.map Block.addr).getLastD f.addr) stop := by
    intro U stop hU hlinkedU fuel os got
    have hrun := @Linked.skip₂ _ _ _ _ (fun k prev a => mallocLoop n k h os got prev a) _ hlinkedU.2
      (fun k prev a ha => by
        obtain ⟨c, hc, rfl⟩ := List.mem_map.mp ha
        have hc' := hV c (hU c hc).1
        exact mallocLoop_next (Nat.lt_of_le_of_lt (Nat.le_of_eq (hsize c hc'.1)) (hU c hc).2)
          (hrover ▸ hc'.2))
      fuel f.addr
    rw [List.length_map] at hrun
    exact (congrArg (mallocLoop n _ h os got f.addr) hlinkedU.1).trans hrun
  have hfit : ∀ U t, (∀ c ∈ U, c ∈ V ∧ c.size < n) → U.length ≤ V.length → t ∈ h.bottom :: l →
      n ≤ t.size → Linked (fun a => (h.mem a).ptr) t.addr ((f :: U).map Block.addr) →
      ∃ pre p t post, h.bottom :: l = pre ++ p :: t :: post ∧ n ≤ t.size ∧
        ∀ fuel os got, l.length + 1 ≤ fuel →
          mallocLoop n fuel h os got f.addr (h.mem f.addr).ptr =
            some ⟨(carve h n p.addr t.addr).1, (carve h n p.addr t.addr).2, got⟩ := by
    intro U t hU hUlen ht htn hlinkedU
    have hlast : (U.map Block.addr).getLastD f.addr = (U.getLastD f).addr := by
      simp only [List.getLastD_eq_getLast?, List.getLast?_map]
      cases U.getLast? <;> rfl
    have hp : U.getLastD f ∈ h.bottom :: l := by
      rcases List.mem_cons.mp (List.getLastD_mem_cons) with heq | hmem
      · rw [heq]
        exact hfmem
      · exact (hV _ (hU _ hmem).1).1
    have hnext := hlinkedU.next_last
    rw [hlast] at hnext
    obtain ⟨pre, post, heq⟩ := hf.pred_of_next hp ht (by omega) hnext
    refine ⟨pre, U.getLastD f, t, post, heq, htn, ?_⟩
    intro fuel os got hfuel
    have hrun := hskip U t.addr hU hlinkedU (fuel - U.length - 1 + 1) os got
    rw [show U.length + (fuel - U.length - 1 + 1) = fuel by omega] at hrun
    rw [hrun, hlast, mallocLoop, if_pos (by rw [hsize t ht]; exact htn)]
  cases hfind : V.find? (fun c => decide (n ≤ c.size)) with
  | some t =>
    obtain ⟨htn, U, W, hVeq, hU⟩ := List.find?_eq_some_iff_append.mp hfind
    left
    apply hfit U t
    · intro c hc
      exact ⟨by rw [hVeq]; simp [hc], by simpa using hU c hc⟩
    · rw [hVeq]
      simp
    · exact (hV t (by rw [hVeq]; simp)).1
    · exact of_decide_eq_true htn
    · rw [hVeq, ← List.cons_append, List.map_append, Linked.append_iff] at hlinked
      exact hlinked.1
  | none =>
    have hsmall : ∀ c ∈ V, c ∈ V ∧ c.size < n := by
      intro c hc
      exact ⟨hc, by simpa using List.find?_eq_none.mp hfind c hc⟩
    by_cases hfn : n ≤ f.size
    · exact .inl (hfit V f hsmall (Nat.le_refl _) hfmem hfn hlinked)
    right
    refine ⟨fun c hc => ?_, fun fuel os got => ?_⟩
    · rcases hall c (List.mem_cons_of_mem _ hc) with rfl | hc
      · exact Nat.not_le.mp hfn
      · exact (hsmall c hc).2
    · rw [← hlen, hskip V f.addr hsmall hlinked, mallocLoop,
        if_neg (by rw [hsize f hfmem]; exact hfn), if_pos hrover]
      rfl

end FreeList

theorem le_moreUnits (n : Nat) : n ≤ moreUnits n := by
  unfold moreUnits
  split <;> omega

namespace HeapInv

variable {h : Heap} {live free segs : List Block} {n a fuel : Nat} {os : List (Option Nat)}

section
variable (hi : HeapInv h live free segs) (hn : 0 < n)
include hi hn

omit hn in
theorem freep_ne_zero : h.freep ≠ 0 := by
  obtain ⟨c, hc, heq⟩ := List.mem_map.mp hi.list.rover
  have hle := hi.list.base_le hc
  have hpos := hi.base_pos
  omega

theorem morecore_spec (hfresh : Fresh h.base segs ⟨a, moreUnits n⟩)
    (htotal : units segs + moreUnits n < 2 ^ 32) (fuel : Nat) (hfuel : free.length + 1 ≤ fuel) :
    ∃ h' free', morecore fuel n (some a) h = some (h'.freep, h') ∧ h'.base = h.base ∧
      HeapInv h' live free' (segs ++ [⟨a, moreUnits n⟩]) ∧ (∃ c ∈ free', n ≤ c.size) ∧
      free'.length ≤ free.length + 1 := by
  have hle := le_moreUnits n
  have hgrow := hi.grow hfresh (Nat.lt_of_lt_of_le hn hle) htotal
  obtain ⟨h', free', hrun, hbase, hi', ⟨c, hc, hsize⟩, hlen⟩ := hgrow.free_spec hfuel
  refine ⟨h', free', ?_, hbase, hi', ⟨c, hc, Nat.le_trans hle hsize⟩, hlen⟩
  have hrun : Umalloc.free fuel (a + 16) (setHeader h a (moreUnits n)) = some h' := hrun
  show (Umalloc.free fuel (a + 16) (setHeader h a (moreUnits n))).bind _ = _
  rw [hrun]
  rfl

/-- What a call of `malloc` may have done: nothing but ask in vain, or hand out a block. -/
def Done (h : Heap) (live segs : List Block) (n : Nat) (out : Out) : Prop :=
  (out.ret = 0 ∧ out.heap = h ∧ out.got = []) ∨
    ∃ b free', out.ret = b.addr + 16 ∧ b.size = n ∧ out.heap.base = h.base ∧
      HeapInv out.heap (b :: live) free' (segs ++ out.got)

/-- What the next answer of `sbrk` has to be: a failure, or memory that the heap has room for. -/
def Allowed (h : Heap) (segs : List Block) (n : Nat) (os : List (Option Nat)) : Prop :=
  ∀ a, os.headD none = some a →
    Fresh h.base segs ⟨a, moreUnits n⟩ ∧ units segs + moreUnits n < 2 ^ 32

theorem mallocLoop_spec (hos : (∀ c ∈ free, c.size < n) → Allowed h segs n os)
    (hfuel : 2 * free.length + 4 ≤ fuel) :
    ∃ out, mallocLoop n fuel h os [] h.freep (h.mem h.freep).ptr = some out ∧
      Done h live segs n out := by
  rcases hi.list.mallocLoop_round hn with ⟨pre, p, t, post, heq, hfit, hrun⟩ | ⟨hsmall, hrun⟩
  · obtain ⟨h', b, free', hcarve, hsize, hbase, hi'⟩ := hi.carve_spec heq hn hfit
    refine ⟨_, hrun fuel os [] (by omega), .inr ⟨b, free', ?_, hsize, ?_, ?_⟩⟩
    · rw [hcarve]
    · rw [hcarve]
      exact hbase
    · rw [hcarve, List.append_nil]
      exact hi'
  · obtain ⟨k, rfl⟩ : ∃ k, fuel = free.length + (k + 1) := ⟨fuel - free.length - 1, by omega⟩
    rw [hrun k os []]
    unfold mallocMore
    cases hans : os.headD none with
    | none => exact ⟨⟨0, h, []⟩, rfl, .inl ⟨rfl, rfl, rfl⟩⟩
    | some a =>
      obtain ⟨hfresh, htotal⟩ := hos hsmall a hans
      obtain ⟨h1, free1, hmore, hbase1, hi1, ⟨c, hc, hcn⟩, hlen⟩ :=
        hi.morecore_spec hn hfresh htotal k (by omega)
      rw [hmore]
      simp only [if_neg hi1.freep_ne_zero]
      -- the second round finds the block that `morecore` made
      rcases hi1.list.mallocLoop_round hn with ⟨pre, p, t, post, heq, hfit, hrun1⟩ | ⟨hsmall1, -⟩
      · obtain ⟨h2, b, free2, hcarve, hsize, hbase2, hi2⟩ := hi1.carve_spec heq hn hfit
        refine ⟨_, hrun1 k os.tail _ (by omega), .inr ⟨b, free2, ?_, hsize, ?_, ?_⟩⟩
        · rw [hcarve]
        · rw [hcarve]
          exact hbase2.trans hbase1
        · rw [hcarve]
          exact hi2
      · exact absurd (hsmall1 c hc) (Nat.not_lt.mpr hcn)

/-- Where no block is large enough, what `sbrk` answers is recorded. -/
theorem got_of_small (hsmall : ∀ c ∈ free, c.size < n)
    {out : Out} (hrun : mallocLoop n fuel h os [] h.freep (h.mem h.freep).ptr = some out)
    (hans : os.headD none = some a) : ∃ rest, out.got = ⟨a, moreUnits n⟩ :: rest := by
  rcases hi.list.mallocLoop_round hn with ⟨pre, p, t, post, heq, hfit, -⟩ | ⟨-, hround⟩
  · have ht : t ∈ free := mem_free_of_size (by rw [heq]; simp) (by omega)
    exact absurd (hsmall t ht) (Nat.not_lt.mpr hfit)
  have hrun' := mallocLoop_mono (show fuel ≤ free.length + (fuel + 1) by omega) hrun
  rw [hround fuel os [], mallocMore, hans] at hrun'
  cases hmore : morecore fuel n (some a) h with
  | none => rw [hmore] at hrun'; cases hrun'
  | some r =>
    rw [hmore] at hrun'
    dsimp only at hrun'
    split_ifs at hrun'
    · exact ⟨[], congrArg Out.got (Option.some.inj hrun').symm⟩
    · obtain ⟨rest, hrest⟩ := mallocLoop_got hrun'
      exact ⟨rest, hrest.symm⟩

end

end HeapInv

end Xv6.Umalloc
