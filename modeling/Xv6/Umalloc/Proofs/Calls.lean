import Mathlib.Data.List.Pairwise
import Xv6.Umalloc.Proofs.Malloc

/-!
# Runs of the allocator

A program calls `malloc` and `free` and writes to the memory that it was given. `Run` collects what
it holds and what `sbrk` gave; along every run the free list is in order and no memory is lost or
handed out twice, as long as the units obtained fit the `uint` that a header has for its size.
-/

namespace Xv6.Umalloc

open Option (some bind_eq_bind bind_some)
open Block (limit addr mem_cells)

/-- A live result of `malloc`, with the argument of the call. -/
structure Alloc where
  ptr : Nat
  bytes : Nat
  deriving Repr, DecidableEq

/-- The block of an allocation: its header and the units behind it. -/
def Alloc.block (a : Alloc) : Block := ⟨a.ptr - 16, nunits a.bytes⟩

/-- The memory obtained in a call: each piece fresh, and asked for by less than `2 ^ 31` bytes. -/
def FreshAll (base : Nat) : List Block → List Block → Prop
  | _, [] => True
  | segs, b :: got =>
    Fresh base segs b ∧ 16 * b.size < 2 ^ 31 ∧ FreshAll base (segs ++ [b]) got

/-- The heap, the live results and the memory obtained after some calls. -/
inductive Run (base : Nat) : Heap → List Alloc → List Block → Prop
  | start (mem : Nat → Header) : Run base ⟨base, mem, 0⟩ [] []
  | malloc {h : Heap} {live : List Alloc} {segs : List Block} {fuel n : Nat}
      {os : List (Option Nat)} {out : Out} : Run base h live segs → n < 2 ^ 32 →
      malloc fuel n os h = some out → FreshAll base segs out.got →
      Run base out.heap (if out.ret = 0 then live else ⟨out.ret, n⟩ :: live) (segs ++ out.got)
  | free {h h' : Heap} {live : List Alloc} {segs : List Block} {fuel : Nat} {a : Alloc} :
      Run base h live segs → a ∈ live → free fuel a.ptr h = some h' →
      Run base h' (live.erase a) segs
  /-- The program writes to the bytes that it holds; a header elsewhere stays. -/
  | write {h : Heap} {live : List Alloc} {segs : List Block} {mem : Nat → Header} :
      Run base h live segs →
      (∀ x, (∀ a ∈ live, x + 16 ≤ a.ptr ∨ a.ptr + a.bytes ≤ x) → mem x = h.mem x) →
      Run base { h with mem } live segs

/-- What holds along a run: nothing was obtained yet, or the memory is divided. -/
structure RunInv (base : Nat) (h : Heap) (live : List Alloc) (segs : List Block) : Prop where
  base : h.base = base
  heap : (h.freep = 0 ∧ live = [] ∧ segs = []) ∨
    ∃ free, HeapInv h (live.map Alloc.block) free segs
  ptr : ∀ a ∈ live, 16 ≤ a.ptr

instance : Std.Symm Block.Disjoint := ⟨fun _ _ => Or.symm⟩

theorem nunits_pos (n : Nat) : 0 < nunits n := Nat.succ_pos _

theorem le_nunits (n : Nat) : 16 + n ≤ 16 * nunits n := by
  unfold nunits
  omega

theorem block_addr {a : Alloc} (ha : 16 ≤ a.ptr) : a.block.addr + 16 = a.ptr :=
  Nat.sub_add_cancel ha

theorem block_limit (a : Alloc) (ha : 16 ≤ a.ptr) : a.ptr + a.bytes ≤ a.block.limit := by
  have hle := le_nunits a.bytes
  have haddr := block_addr ha
  have hsize : a.block.size = nunits a.bytes := rfl
  unfold limit
  omega

namespace RunInv

variable {base n : Nat} {h : Heap} {live : List Alloc} {segs : List Block} {os : List (Option Nat)}

section

variable (hr : RunInv base h live segs)
include hr

theorem initBase_inv (hpos : 0 < base) :
    ∃ free, HeapInv (initBase h) (live.map Alloc.block) free segs ∧ (initBase h).base = base := by
  unfold initBase
  rcases hr.heap with ⟨hzero, rfl, rfl⟩ | ⟨free, hi⟩
  · rw [if_pos hzero]
    exact ⟨[], HeapInv.init (hr.base ▸ hpos), hr.base⟩
  · rw [if_neg hi.freep_ne_zero]
    exact ⟨free, hi, hr.base⟩

theorem malloc_returns (hpos : 0 < base)
    (hos : ∀ a, os.headD none = some a → Fresh base segs ⟨a, moreUnits (nunits n)⟩ ∧
      units segs + moreUnits (nunits n) < 2 ^ 32) : ∃ fuel out, malloc fuel n os h = some out := by
  obtain ⟨free, hi, hbase⟩ := hr.initBase_inv hpos
  have hallowed : HeapInv.Allowed (initBase h) segs (nunits n) os := by
    intro a ha
    rw [hbase]
    exact hos a ha
  obtain ⟨out, hrun, -⟩ := hi.mallocLoop_spec (nunits_pos n) (fun _ => hallowed) (Nat.le_refl _)
  exact ⟨2 * free.length + 4, out, hrun⟩

theorem free_step {a : Alloc} (ha : a ∈ live) :
    ∃ fuel h', Umalloc.free fuel a.ptr h = some h' ∧ RunInv base h' (live.erase a) segs := by
  rcases hr.heap with ⟨-, rfl, -⟩ | ⟨free, hi⟩
  · cases ha
  have hperm : (a.block :: (live.erase a).map Alloc.block).Perm (live.map Alloc.block) :=
    ((List.perm_cons_erase ha).map Alloc.block).symm
  obtain ⟨h', free', hrun, hbase, hi', -, -⟩ := (hi.perm hperm).free_spec (Nat.le_refl _)
  refine ⟨_, h', hrun, hbase.trans hr.base, .inr ⟨free', hi'⟩, ?_⟩
  intro b hb
  exact hr.ptr b (List.mem_of_mem_erase hb)

theorem malloc_step (hpos : 0 < base) {fuel : Nat} {out : Out}
    (hrun : malloc fuel n os h = some out) (hfresh : FreshAll base segs out.got)
    (htotal : units (segs ++ out.got) < 2 ^ 32) :
    RunInv base out.heap (if out.ret = 0 then live else ⟨out.ret, n⟩ :: live)
      (segs ++ out.got) := by
  obtain ⟨free, hi, hbase⟩ := hr.initBase_inv hpos
  have hrun : mallocLoop (nunits n) fuel (initBase h) os [] (initBase h).freep
    ((initBase h).mem (initBase h).freep).ptr = some out := hrun
  -- an answer that was used is recorded, so it obeys the rules
  have hallowed : (∀ c ∈ free, c.size < nunits n) →
      HeapInv.Allowed (initBase h) segs (nunits n) os := by
    intro hsmall a ha
    obtain ⟨rest, hrest⟩ := hi.got_of_small (nunits_pos n) hsmall hrun ha
    rw [hrest] at hfresh htotal
    rw [units_append] at htotal
    simp only [units, List.map_cons, List.sum_cons] at htotal ⊢
    rw [hbase]
    exact ⟨hfresh.1, by omega⟩
  obtain ⟨out', hrun', hdone⟩ := hi.mallocLoop_spec (nunits_pos n) hallowed
    (Nat.le_max_right fuel (2 * free.length + 4))
  have heq : out' = out :=
    some.inj (hrun'.symm.trans (mallocLoop_mono (Nat.le_max_left _ _) hrun))
  subst heq
  rcases hdone with ⟨hret, hheap, hgot⟩ | ⟨b, free', hret, hsize, hbase', hi'⟩
  · rw [if_pos hret, hgot, List.append_nil]
    exact ⟨hheap ▸ hbase, .inr ⟨free, hheap ▸ hi⟩, hr.ptr⟩
  have hne : out'.ret ≠ 0 := by omega
  rw [if_neg hne]
  have hblock : (⟨out'.ret, n⟩ : Alloc).block = b := by
    unfold Alloc.block
    rw [← hsize, hret, Nat.add_sub_cancel]
  refine ⟨hbase'.trans hbase, .inr ⟨free', ?_⟩, ?_⟩
  · rw [List.map_cons, hblock]
    exact hi'
  · intro a ha
    rcases List.mem_cons.mp ha with rfl | ha
    · show 16 ≤ out'.ret
      omega
    · exact hr.ptr a ha

theorem write_step {mem : Nat → Header}
    (hmem : ∀ x, (∀ a ∈ live, x + 16 ≤ a.ptr ∨ a.ptr + a.bytes ≤ x) → mem x = h.mem x) :
    RunInv base { h with mem } live segs := by
  refine ⟨hr.base, ?_, hr.ptr⟩
  rcases hr.heap with hnone | ⟨free, hi⟩
  · exact .inl hnone
  right
  -- a block that is disjoint from the allocation, or the header of the allocation itself
  have hspare : ∀ b : Block, 0 < b.size → ∀ a ∈ live, b = a.block ∨ b.Disjoint a.block →
      b.addr + 16 ≤ a.ptr ∨ a.ptr + a.bytes ≤ b.addr := by
    intro b hb a ha hcase
    have haddr := block_addr (hr.ptr a ha)
    have hlimit := block_limit a (hr.ptr a ha)
    rcases hcase with rfl | hdisj
    · exact .inl (Nat.le_of_eq haddr)
    · unfold Block.Disjoint limit at *
      omega
  have hblock : ∀ b ∈ live.map Alloc.block ++ free, mem b.addr = h.mem b.addr := by
    intro b hb
    apply hmem
    intro a ha
    apply hspare b (hi.proper b hb).1 a ha
    have hamem : a.block ∈ live.map Alloc.block ++ free :=
      List.mem_append_left _ (List.mem_map_of_mem ha)
    by_cases hba : b = a.block
    · exact .inl hba
    · exact .inr (hi.disjoint.forall hb hamem hba)
  have hbot : mem h.base = h.mem h.base := by
    apply hmem
    intro a ha
    have hlt := hi.base_lt (List.mem_append_left free (List.mem_map_of_mem ha))
    have haddr := block_addr (hr.ptr a ha)
    omega
  refine ⟨free, ⟨hi.list.stored.congr ?_, hi.list.apart, hi.list.rover⟩, ?_, hi.proper, hi.cells,
    hi.nodup, hi.above, hi.base_pos, hi.total⟩
  · intro b hb
    rcases List.mem_cons.mp hb with rfl | hb
    · exact hbot
    · exact hblock b (List.mem_append_right _ hb)
  · intro b hb
    show (mem b.addr).size = b.size
    rw [hblock b (List.mem_append_left _ hb)]
    exact hi.size b hb

end

end RunInv

theorem run_inv {base : Nat} (hpos : 0 < base)
    (hrun : Run base h live segs) (htotal : units segs < 2 ^ 32) : RunInv base h live segs := by
  induction hrun with
  | start mem => exact ⟨rfl, .inl ⟨rfl, rfl, rfl⟩, by simp⟩
  | malloc _ _ hcall hfresh ih =>
    have hle := htotal
    rw [units_append] at hle
    exact (ih (by omega)).malloc_step hpos hcall hfresh htotal
  | free _ ha hcall ih =>
    obtain ⟨fuel', h', hcall', hr⟩ := (ih htotal).free_step ha
    have heq := (free_mono (Nat.le_max_left _ fuel') hcall).symm.trans
      (free_mono (Nat.le_max_right _ fuel') hcall')
    rw [some.inj heq]
    exact hr
  | write _ hmem ih => exact (ih htotal).write_step hmem

/-- What a program can rely on: the state of the free list and of the memory that was handed out. -/
structure Sound (h : Heap) (live : List Alloc) (segs free : List Block) : Prop where
  /-- From the rover the list goes up to its highest block, on to `base`, and up to the rover. -/
  circular : ∃ low high, low ++ high = h.bottom :: free ∧
    (high.map addr).head? = some h.freep ∧
    Linked (fun a => (h.mem a).ptr) h.freep ((high ++ low).map addr)
  sizes : ∀ b ∈ free, (h.mem b.addr).size = b.size
  /-- Addresses ascend, and a gap is left behind every block. -/
  apart : (h.bottom :: free).Pairwise fun b c => b.limit < c.addr
  /-- Results are aligned and large enough, with their header in front. -/
  results : ∀ a ∈ live, a.ptr % 16 = 0 ∧ a.block.addr + 16 = a.ptr ∧
    a.ptr + a.bytes ≤ a.block.limit
  /-- Every byte of a block is memory that `sbrk` gave. -/
  inside : ∀ b ∈ live.map Alloc.block ++ free, ∀ x, b.addr ≤ x → x < b.limit →
    ∃ s ∈ segs, s.addr ≤ x ∧ x < s.limit
  disjoint : (live.map Alloc.block ++ free).Pairwise fun b c => b.limit ≤ c.addr ∨ c.limit ≤ b.addr
  base : ∀ b ∈ live.map Alloc.block ++ free, h.base + 16 ≤ b.addr
  units : units (live.map Alloc.block) + units free = units segs

theorem HeapInv.sound {free : List Block} (hi : HeapInv h (live.map Alloc.block) free segs)
    (hptr : ∀ a ∈ live, 16 ≤ a.ptr) : Sound h live segs free where
  circular := by
    obtain ⟨f, hfmem, hfaddr⟩ := List.mem_map.mp hi.list.rover
    obtain ⟨x, y, heq⟩ := List.append_of_mem hfmem
    refine ⟨x, f :: y, heq.symm, by simp [hfaddr], ?_⟩
    rw [← hfaddr]
    exact hi.list.rotated heq
  sizes b hb := hi.list.stored.size b (by simp [hb])
  apart := hi.list.apart
  results a ha := by
    have haddr := block_addr (hptr a ha)
    have haligned := (hi.proper a.block (by simp [List.mem_map_of_mem ha])).2
    exact ⟨by omega, haddr, block_limit a (hptr a ha)⟩
  inside b hb x hlow hhigh := by
    -- the unit of the byte
    have hcell : b.addr + 16 * ((x - b.addr) / 16) ∈ segs.flatMap Block.cells := by
      apply hi.cells.subset
      refine List.mem_flatMap.mpr ⟨b, hb, mem_cells.mpr ⟨_, ?_, rfl⟩⟩
      unfold limit at hhigh
      omega
    obtain ⟨s, hs, hsx⟩ := List.mem_flatMap.mp hcell
    obtain ⟨i, hi', heq⟩ := mem_cells.mp hsx
    refine ⟨s, hs, ?_⟩
    unfold limit
    omega
  disjoint := hi.disjoint
  base b hb := hi.base_lt hb
  units := hi.units_eq

/-- Along every run whose memory has fewer than `2 ^ 32` units, the free list and the results are
sound, and every further call returns. -/
theorem umalloc_sound {base : Nat} {h : Heap} {live : List Alloc} {segs : List Block}
    (hpos : 0 < base) (hrun : Run base h live segs) (htotal : units segs < 2 ^ 32) :
    ((h.freep = 0 ∧ live = [] ∧ segs = []) ∨ ∃ free, Sound h live segs free) ∧
    (∀ a ∈ live, ∃ fuel h', free fuel a.ptr h = some h') ∧
    (∀ n os, (∀ a, os.headD none = some a → Fresh base segs ⟨a, moreUnits (nunits n)⟩ ∧
      units segs + moreUnits (nunits n) < 2 ^ 32) → ∃ fuel out, malloc fuel n os h = some out) := by
  have hr := run_inv hpos hrun htotal
  refine ⟨?_, ?_, ?_⟩
  · rcases hr.heap with hnone | ⟨free, hi⟩
    · exact .inl hnone
    · exact .inr ⟨free, hi.sound hr.ptr⟩
  · intro a ha
    obtain ⟨fuel, h', hcall, -⟩ := hr.free_step ha
    exact ⟨fuel, h', hcall⟩
  · intro n os hos
    exact hr.malloc_returns hpos hos

/-- The first call: five bytes from the end of the 4096 units that `sbrk` gives. -/
theorem umalloc_sound_first : ∃ out, malloc 10 5 [some 32] ⟨16, fun _ => ⟨0, 0⟩, 0⟩ = some out ∧
    out.ret = 65552 ∧ ∃ free, Sound out.heap [⟨65552, 5⟩] [⟨32, 4096⟩] free := by
  have hfresh : FreshAll 16 [] [⟨32, 4096⟩] :=
    ⟨⟨by decide, by decide, by simp⟩, by decide, trivial⟩
  have hrun : Run 16 _ _ ([] ++ _) := @Run.malloc 16 _ _ _ 10 5 [some 32] _
    (.start fun _ => ⟨0, 0⟩) (by decide) rfl hfresh
  refine ⟨_, rfl, rfl, ?_⟩
  rcases (umalloc_sound (by decide) hrun (by decide)).1 with ⟨-, hnil, -⟩ | hsound
  · cases hnil
  · exact hsound

/-! ### Sizes that overflow -/

/-- The place of the `i`th of equal blocks that lie side by side. -/
def nth (size i : Nat) : Nat := 32 + 16 * (size * i)

/-- The list is `base` alone, and the first `k` of the equal blocks are in use. -/
structure Filled (size k : Nat) (h : Heap) : Prop where
  base : h.base = 16
  freep : h.freep = 16
  bottom : h.mem 16 = ⟨16, 0⟩
  size : ∀ i < k, (h.mem (nth size i)).size = size

variable {size k : Nat}

theorem Filled.malloc (hf : Filled size k h) (hlow : 4096 ≤ size) (hhigh : size < 2 ^ 32) : ∃ h',
      mallocLoop size 3 h [some (nth size k)] [] h.freep (h.mem h.freep).ptr =
        some ⟨nth size k + 16, h', [⟨nth size k, size⟩]⟩ ∧ Filled size (k + 1) h' := by
  obtain ⟨a, ha⟩ : ∃ a, a = nth size k := ⟨_, rfl⟩
  have hlt : 16 < a := by rw [ha]; unfold nth; omega
  have hmod : size % 2 ^ 32 = size := Nat.mod_eq_of_lt hhigh
  have hmore : moreUnits size = size := if_neg (by omega)
  have hne : (16 : Nat) ≠ a := by omega
  have hfree : free 2 (a + 16) (setHeader h a size) = some { h with
      mem := setPtr (setPtr (setSize h.mem a size) a 16) 16 a
      freep := 16 } := by
    have hb : setSize h.mem a size 16 = ⟨16, 0⟩ := (setSize_of_ne _ _ hne).trans hf.bottom
    unfold free
    simp only [setHeader, Nat.add_sub_cancel, hf.freep, freeLoop, hb]
    rw [if_neg (by omega), if_pos (by omega)]
    simp only [bind_eq_bind, bind_some, joinUpper, hb]
    rw [if_neg (by omega)]
    simp only [joinLower, setPtr_of_ne _ _ hne, hb]
    rw [if_neg (by omega)]
  rw [← ha]
  refine ⟨{ h with
    mem := setPtr (setPtr (setPtr (setSize h.mem a size) a 16) 16 a) 16 16
    freep := 16 }, ?_, hf.base, rfl, ?_, ?_⟩
  · rw [hf.freep, hf.bottom, mallocLoop, hf.bottom, if_neg (by simp; omega), if_pos hf.freep.symm]
    simp only [List.headD_cons, morecore, hmore, hfree, bind_eq_bind, bind_some,
      List.nil_append, Option.toList_some, List.map_cons, List.map_nil, List.tail_cons]
    have hptr : setPtr (setPtr (setSize h.mem a size) a 16) 16 a 16 = ⟨a, 0⟩ := by
      rw [setPtr_self, setPtr_of_ne _ _ hne, setSize_of_ne _ _ hne, hf.bottom]
    have hsize : setPtr (setPtr (setSize h.mem a size) a 16) 16 a a = ⟨16, size⟩ := by
      rw [setPtr_of_ne _ _ hne.symm, setPtr_self, setSize_self, hmod]
    rw [if_neg (by decide), hptr, mallocLoop]
    simp only [hsize, Nat.le_refl, if_true, carve]
  · show setPtr _ 16 16 16 = _
    rw [setPtr_self, setPtr_self, setPtr_of_ne _ _ hne, setSize_of_ne _ _ hne, hf.bottom]
  · intro i hi
    have hi16 : nth size i ≠ 16 := by unfold nth; omega
    show (setPtr _ 16 16 (nth size i)).size = size
    rw [setPtr_of_ne _ _ hi16, setPtr_of_ne _ _ hi16]
    rcases Nat.lt_succ_iff_lt_or_eq.mp hi with hlt | rfl
    · have hia : nth size i ≠ a := by
        have hmul := Nat.mul_lt_mul_of_pos_left hlt (show 0 < size by omega)
        rw [ha]
        unfold nth
        omega
      rw [setPtr_of_ne _ _ hia, setSize_of_ne _ _ hia]
      exact hf.size i hlt
    · rw [← ha, setPtr_self, setSize_self, hmod]

/-- The first `k` blocks were put back and are one free block. -/
structure Merged (size total k : Nat) (h : Heap) : Prop where
  base : h.base = 16
  freep : h.freep = 16 ∨ h.freep = 32
  bottom : h.mem 16 = ⟨32, 0⟩
  block : h.mem 32 = ⟨16, (size * k) % 2 ^ 32⟩
  size : ∀ i, k ≤ i → i < total → (h.mem (nth size i)).size = size

variable {total : Nat}

theorem Filled.free (hf : Filled size total h) (hpos : 0 < size) (hhigh : size < 2 ^ 32)
    (htotal : 0 < total) : ∃ h', free 1 (nth size 0 + 16) h = some h' ∧ Merged size total 1 h' := by
  have hzero : nth size 0 = 32 := rfl
  have hblock : (h.mem 32).size = size := hf.size 0 htotal
  refine ⟨{ h with mem := setPtr (setPtr h.mem 32 16) 16 32, freep := 16 }, ?_, hf.base, .inl rfl,
    ?_, ?_, ?_⟩
  · unfold Umalloc.free
    simp only [hzero, Nat.add_sub_cancel, hf.freep, freeLoop, hf.bottom]
    rw [if_neg (by decide), if_pos (by decide)]
    simp only [bind_eq_bind, bind_some, joinUpper, hf.bottom, hblock]
    rw [if_neg (by omega)]
    simp only [joinLower, setPtr_of_ne _ _ (show (16 : Nat) ≠ 32 by decide), hf.bottom]
    rw [if_neg (by decide)]
  · show setPtr _ 16 32 16 = _
    rw [setPtr_self, setPtr_of_ne _ _ (show (16 : Nat) ≠ 32 by decide), hf.bottom]
  · show setPtr (setPtr h.mem 32 16) 16 32 32 = _
    rw [setPtr_of_ne _ _ (show (32 : Nat) ≠ 16 by decide), setPtr_self, hblock, Nat.mul_one,
      Nat.mod_eq_of_lt hhigh]
  · intro i hi hlt
    have hmul := Nat.mul_le_mul_left size hi
    have h16 : nth size i ≠ 16 := by unfold nth; omega
    have h32 : nth size i ≠ 32 := by unfold nth; omega
    show (setPtr _ 16 32 (nth size i)).size = size
    rw [setPtr_of_ne _ _ h16, setPtr_of_ne _ _ h32]
    exact hf.size i hlt

theorem Merged.free (hm : Merged size total k h) (hpos : 0 < size)
    (hk : 0 < k) (hfits : size * k < 2 ^ 32) (hlt : k < total) :
    ∃ h', free 2 (nth size k + 16) h = some h' ∧ Merged size total (k + 1) h' := by
  obtain ⟨a, ha⟩ : ∃ a, a = nth size k := ⟨_, rfl⟩
  have hmul := Nat.mul_le_mul_left size hk
  have h32 : 32 < a := by rw [ha]; unfold nth; omega
  have hsize : (h.mem a).size = size := ha ▸ hm.size k (Nat.le_refl _) hlt
  have hblock := hm.block
  rw [Nat.mod_eq_of_lt hfits] at hblock
  have hloop : freeLoop h.mem a 2 h.freep = some 32 := by
    have hat : ∀ n, freeLoop h.mem a (n + 1) 32 = some 32 := by
      intro n
      rw [freeLoop, hblock, if_neg (by simp; omega), if_pos (by simp; omega)]
    rcases hm.freep with hfreep | hfreep
    · rw [hfreep, freeLoop, hm.bottom, if_neg (by simp; omega), if_neg (by simp)]
      exact hat 0
    · rw [hfreep]
      exact hat 1
  rw [← ha]
  refine ⟨{ h with
    mem := setPtr (setSize (setPtr h.mem a 16) 32 (size * k + size)) 32 16
    freep := 32 }, ?_, hm.base, .inr rfl, ?_, ?_, ?_⟩
  · have hne : (32 : Nat) ≠ a := by omega
    unfold Umalloc.free
    simp only [Nat.add_sub_cancel, hloop, bind_eq_bind, bind_some, joinUpper, hblock,
      hsize]
    rw [if_neg (by omega)]
    have htouch : 32 + 16 * (size * k) = a := by rw [ha]; rfl
    simp only [joinLower, setPtr_of_ne _ _ hne, hblock, setPtr_self, hsize, if_pos htouch,
      setSize_of_ne _ _ hne.symm]
  · have h16 : (16 : Nat) ≠ 32 := by decide
    have h16a : (16 : Nat) ≠ a := by omega
    show setPtr (setSize (setPtr h.mem a 16) 32 (size * k + size)) 32 16 16 = _
    rw [setPtr_of_ne _ _ h16, setSize_of_ne _ _ h16, setPtr_of_ne _ _ h16a, hm.bottom]
  · show setPtr _ 32 16 32 = _
    rw [setPtr_self, setSize_self, Nat.mul_succ]
  · intro i hi hit
    have hmul' := Nat.mul_le_mul_left size hi
    rw [Nat.mul_succ] at hmul'
    have hi32 : nth size i ≠ 32 := by unfold nth; omega
    have hia : nth size i ≠ a := by rw [ha]; unfold nth; omega
    show (setPtr _ 32 16 (nth size i)).size = size
    rw [setPtr_of_ne _ _ hi32, setSize_of_ne _ _ hi32, setPtr_of_ne _ _ hia]
    exact hm.size i (by omega) hit

/-- The pieces of memory of the first `k` blocks. -/
def pieces (size k : Nat) : List Block := (List.range k).map fun i => ⟨nth size i, size⟩

/-- The results for the blocks from the `k`th on. -/
def results (size n k total : Nat) : List Alloc :=
  (List.range' k (total - k)).map fun i => ⟨nth size i + 16, n⟩

theorem results_cons {n : Nat} (hlt : k < total) :
    results size n k total = ⟨nth size k + 16, n⟩ :: results size n (k + 1) total := by
  unfold results
  rw [show total - k = total - (k + 1) + 1 by omega, List.range'_succ, List.map_cons]

section

variable {n : Nat}

theorem filled_run (hn : n < 2 ^ 32) (hsize : nunits n = size) (hlow : 4096 ≤ size)
    (hhigh : 16 * size < 2 ^ 31) (k : Nat) : ∃ h live, Run 16 h live (pieces size k) ∧
      Filled size k (initBase h) ∧ (0 < k → initBase h = h) ∧
      live.Perm (results size n 0 k) := by
  induction k with
  | zero =>
    refine ⟨⟨16, fun _ => ⟨0, 0⟩, 0⟩, [], .start _, ?_, by simp, List.Perm.refl _⟩
    exact ⟨rfl, rfl, rfl, by simp⟩
  | succ k ih =>
    obtain ⟨h, live, hrun, hf, -, hlive⟩ := ih
    obtain ⟨h', hcall, hf'⟩ := hf.malloc hlow (by omega)
    have hcall' : malloc 3 n [some (nth size k)] h =
        some ⟨nth size k + 16, h', [⟨nth size k, size⟩]⟩ := by
      rw [malloc, hsize]
      exact hcall
    have hfresh : FreshAll 16 (pieces size k) [⟨nth size k, size⟩] := by
      refine ⟨⟨?_, ?_, ?_⟩, hhigh, trivial⟩
      · show (nth size k) % 16 = 0
        unfold nth
        omega
      · show 16 + 16 ≤ nth size k
        unfold nth
        omega
      · intro s hs
        obtain ⟨i, hi, rfl⟩ := List.mem_map.mp hs
        have hmul := Nat.mul_le_mul_left size (Nat.succ_le_of_lt (List.mem_range.mp hi))
        rw [Nat.mul_succ] at hmul
        show nth size i + 16 * size ≤ nth size k
        unfold nth
        omega
    have hnext := Run.malloc hrun hn hcall' hfresh
    have hinit : initBase h' = h' := if_neg (by rw [hf'.freep]; decide)
    refine ⟨h', _, by simpa [pieces, List.range_succ] using hnext, hinit.symm ▸ hf', fun _ => hinit,
      ?_⟩
    · have hall : results size n 0 (k + 1) = results size n 0 k ++ [⟨nth size k + 16, n⟩] := by
        unfold results
        rw [Nat.sub_zero, Nat.sub_zero, List.range'_concat]
        simp
      rw [hall]
      exact (hlive.cons _).trans (List.perm_append_singleton _ _).symm

theorem merged_run (hn : n < 2 ^ 32) (hsize : nunits n = size) (hlow : 4096 ≤ size)
    (hhigh : 16 * size < 2 ^ 31) (k : Nat) (hk : k < total)
    (hfits : size * k < 2 ^ 32) : ∃ h live, Run 16 h live (pieces size total) ∧
      Merged size total (k + 1) h ∧ live.Perm (results size n (k + 1) total) := by
  induction k with
  | zero =>
    obtain ⟨h, live, hrun, hf, hinit, hlive⟩ := filled_run hn hsize hlow hhigh total
    rw [hinit hk] at hf
    obtain ⟨h', hcall, hm⟩ := hf.free (by omega) (by omega) hk
    rw [results_cons hk] at hlive
    refine ⟨h', _, hrun.free (hlive.symm.subset List.mem_cons_self) hcall, hm, ?_⟩
    simpa using hlive.erase ⟨nth size 0 + 16, n⟩
  | succ k ih =>
    have hle := Nat.mul_le_mul_left size (Nat.le_succ k)
    obtain ⟨h, live, hrun, hm, hlive⟩ := ih (by omega) (Nat.lt_of_le_of_lt hle hfits)
    obtain ⟨h', hcall, hm'⟩ := hm.free (by omega) (by omega) hfits hk
    rw [results_cons hk] at hlive
    refine ⟨h', _, hrun.free (hlive.symm.subset List.mem_cons_self) hcall, hm', ?_⟩
    simpa using hlive.erase ⟨nth size (k + 1) + 16, n⟩

theorem Sound.linked {free : List Block} (hs : Sound h live segs free) :
    Linked (fun a => (h.mem a).ptr) h.base ((h.bottom :: free).map addr) := by
  obtain ⟨low, high, heq, hfirst, hlinked⟩ := hs.circular
  rw [← heq]
  cases high with
  | nil => cases hfirst
  | cons f high =>
    have hf : f.addr = h.freep := some.inj hfirst
    rw [← hf] at hlinked
    cases low with
    | nil =>
      have hbase : f.addr = h.base := by rw [(List.cons.inj heq).1]; rfl
      rw [List.append_nil, hbase] at hlinked
      exact hlinked
    | cons c low =>
      have hbase : c.addr = h.base := by rw [(List.cons.inj heq).1]; rfl
      rw [List.map_append] at hlinked ⊢
      rw [← hbase]
      exact hlinked.rotate

theorem Merged.units_free (hm : Merged size total k h) {free : List Block} (hs : Sound h live segs free) :
    units free = (size * k) % 2 ^ 32 := by
  have hlinked := hs.linked
  have hfirst : (h.mem h.base).ptr = (free.map addr).headD h.base := hlinked.1
  rw [hm.base, hm.bottom] at hfirst
  cases free with
  | nil => cases hfirst
  | cons b rest =>
    have hb : b.addr = 32 := hfirst.symm
    have hnext : (h.mem b.addr).ptr = (rest.map addr).headD h.base := hlinked.2.1
    have hsize := hs.sizes b (by simp)
    rw [hb, hm.block] at hnext hsize
    cases rest with
    | nil => simpa [units] using hsize.symm
    | cons c rest =>
      have hc : 16 = c.addr := hnext
      have hapart : b.limit < c.addr :=
        (List.pairwise_cons.mp (List.pairwise_cons.mp hs.apart).2).1 c (by simp)
      unfold limit at hapart
      omega

end

/-- Thirty-three blocks of just under `2 ^ 31` bytes each are obtained side by side and put back.
They are joined to one block, whose size does not fit into a `uint`: the free list has lost
memory. -/
theorem umalloc_size_overflow : ∃ h segs, Run 16 h [] segs ∧ h.freep ≠ 0 ∧
    ∀ free, ¬ Sound h [] segs free := by
  have hunits : nunits (16 * (2 ^ 27 - 2)) = 2 ^ 27 - 1 := by decide
  obtain ⟨h, live, hrun, hm, hlive⟩ := merged_run (by decide) hunits (by decide)
    (by decide) 32 (show 32 < 33 by decide) (by decide)
  have hnil : live = [] := hlive.eq_nil
  rw [hnil] at hrun
  refine ⟨h, _, hrun, by rcases hm.freep with hf | hf <;> omega, ?_⟩
  intro free hs
  have hfree := hm.units_free hs
  have htotal := hs.units
  rw [hfree] at htotal
  exact absurd htotal (by decide)

end Xv6.Umalloc
