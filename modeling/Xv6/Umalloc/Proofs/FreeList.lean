import Xv6.Lib.Linked
import Xv6.Umalloc.Code

/-!
# The free list of the allocator

`FreeList h l` says that the list of `h` is `base` followed by the blocks `l`: circular, in
ascending order with a gap behind every block, and entered at one of its members. What `free` and
`malloc` write is worked out here for a block with its place in the list; that the block belongs
there, and that no size overflows, are hypotheses.
-/

namespace Xv6

open Function
open List (map_append mem_append_left mem_append_right map_cons nil_append cons_append
  pairwise_append append_of_mem mem_cons sum_cons mem_append mem_map pairwise_cons mem_pair)

namespace Umalloc

namespace Block

def limit (b : Block) : Nat := b.addr + 16 * b.size

def cells (b : Block) : List Nat := (List.range b.size).map (b.addr + 16 * ·)

/-- The bytes of the one lie outside those of the other. -/
def Disjoint (b c : Block) : Prop := b.limit ≤ c.addr ∨ c.limit ≤ b.addr

/-- A gap is left between the one block and the other above it. -/
def Below (b c : Block) : Prop := b.limit < c.addr

def join (b c : Block) : Block := ⟨b.addr, b.size + c.size⟩

theorem join_limit {b c : Block} (h : b.limit = c.addr) : (b.join c).limit = c.limit := by
  simp only [join, limit] at *
  omega

theorem join_cells {b c : Block} (h : b.limit = c.addr) :
    (b.join c).cells = b.cells ++ c.cells := by
  unfold join cells limit at *
  rw [List.range_add, map_append, List.map_map, ← h]
  congr 1
  apply List.map_congr_left
  intro i _
  simp only [comp_apply]
  omega

end Block

def Heap.bottom (h : Heap) : Block := ⟨h.base, 0⟩

/-- The headers of the blocks `l`: they lead from each block to the next one and to `stop`. -/
structure Stored (m : Nat → Header) (stop : Nat) (l : List Block) : Prop where
  linked : Linked (fun a => (m a).ptr) stop (l.map Block.addr)
  size : ∀ b ∈ l, (m b.addr).size = b.size

namespace Stored

variable {m m' : Nat → Header} {stop : Nat} {l l' : List Block} {pre post : List Block} {t : Block}

theorem nil : Stored m stop [] := ⟨trivial, by simp⟩

theorem append_iff : Stored m stop (l ++ l') ↔
    Stored m ((l'.map Block.addr).headD stop) l ∧ Stored m stop l' := by
  constructor
  · intro h
    have hlinked := h.linked
    rw [map_append, Linked.append_iff] at hlinked
    exact ⟨⟨hlinked.1, fun b hb => h.size b (mem_append_left l' hb)⟩,
      ⟨hlinked.2, fun b hb => h.size b (mem_append_right l hb)⟩⟩
  · rintro ⟨h, h'⟩
    constructor
    · rw [map_append, Linked.append_iff]
      exact ⟨h.linked, h'.linked⟩
    · intro b hb
      exact (mem_append.mp hb).elim (h.size b) (h'.size b)

theorem cons {b : Block} (h : Stored m stop l)
    (hb : m b.addr = ⟨(l.map Block.addr).headD stop, b.size⟩) : Stored m stop (b :: l) := by
  constructor
  · exact ⟨congrArg Header.ptr hb, h.linked⟩
  · intro c hc
    rcases mem_cons.mp hc with rfl | hc
    · exact congrArg Header.size hb
    · exact h.size c hc

theorem congr (h : Stored m stop l) (heq : ∀ b ∈ l, m' b.addr = m b.addr) : Stored m' stop l := by
  constructor
  · apply h.linked.congr
    intro a ha
    obtain ⟨b, hb, rfl⟩ := mem_map.mp ha
    exact congrArg Header.ptr (heq b hb)
  · intro b hb
    exact (congrArg Header.size (heq b hb)).trans (h.size b hb)

end Stored

/-- The free list of `h` is `base` and the blocks `l`. -/
structure FreeList (h : Heap) (l : List Block) : Prop where
  stored : Stored h.mem h.base (h.bottom :: l)
  apart : (h.bottom :: l).Pairwise Block.Below
  rover : h.freep ∈ (h.bottom :: l).map Block.addr

section

variable (m : Nat → Header) (p q n : Nat) {a : Nat}

@[simp] theorem setPtr_self : setPtr m p q p = ⟨q, (m p).size⟩ := by simp [setPtr]

@[simp] theorem setSize_self : setSize m p n p = ⟨(m p).ptr, n % 2 ^ 32⟩ := by simp [setSize]

variable {p}

theorem setPtr_of_ne (h : a ≠ p) : setPtr m p q a = m a := update_of_ne h _ _

theorem setSize_of_ne (h : a ≠ p) : setSize m p n a = m a := update_of_ne h _ _

end

/-- What `joinUpper` writes: `bp` is the only header that changes. -/
theorem joinUpper_eq {m : Nat → Header} {bp p : Nat} (hne : p ≠ bp) (hq : (m p).ptr ≠ bp) :
    joinUpper m bp p = update m bp
      (if bp + 16 * (m bp).size = (m p).ptr then
        ⟨(m (m p).ptr).ptr, ((m bp).size + (m (m p).ptr).size) % 2 ^ 32⟩
      else ⟨(m p).ptr, (m bp).size⟩) := by
  unfold joinUpper
  split
  · simp only [setPtr, setSize, update_of_ne hne, update_of_ne hq, update_idem, update_self]
  · rfl

/-- What `joinLower` writes: `p` is the only header that changes. -/
theorem joinLower_eq {m : Nat → Header} {bp p : Nat} (hne : bp ≠ p) :
    joinLower m bp p = update m p
      (if p + 16 * (m p).size = bp then ⟨(m bp).ptr, ((m p).size + (m bp).size) % 2 ^ 32⟩
      else ⟨bp, (m p).size⟩) := by
  unfold joinLower
  split
  · simp only [setPtr, setSize, update_of_ne hne, update_idem, update_self]
  · rfl

namespace FreeList

variable {h : Heap}

theorem next_eq (hf : FreeList h l) (hl : h.bottom :: l = pre ++ t :: post) :
    (h.mem t.addr).ptr = (post.map Block.addr).headD h.base := by
  have hlinked := hf.stored.linked
  rw [hl, map_append, map_cons] at hlinked
  exact hlinked.next_eq

theorem head_eq (hl : h.bottom :: l = pre ++ t :: post) :
    (pre.map Block.addr).headD t.addr = h.base := by
  cases pre with
  | nil => rw [nil_append, List.cons.injEq] at hl; rw [← hl.1]; rfl
  | cons b pre => rw [cons_append, List.cons.injEq] at hl; rw [← hl.1]; rfl

section

variable {bp : Nat} (hf : FreeList h l)
include hf

theorem addr_lt (hl : h.bottom :: l = pre ++ t :: post) {c : Block} (hc : c ∈ post) :
    t.addr < c.addr := by
  have hapart := hf.apart
  rw [hl, pairwise_append] at hapart
  have hbelow : t.limit < c.addr := (pairwise_cons.mp hapart.2.1).1 c hc
  unfold Block.limit at hbelow
  omega

section
variable (hl : h.bottom :: l = pre ++ t :: post) (hpre : ∀ b ∈ pre, b.addr < bp) (ht : t.addr < bp)
  (hpost : ∀ b ∈ post, bp < b.addr)
include hl hpre ht hpost

omit hpost in
/-- The loop of `free` moves on at a block below the place of `bp` that is not the last such. -/
theorem freeLoop_low (n : Nat) : ∀ a ∈ pre.map Block.addr,
      freeLoop h.mem bp (n + 1) a = freeLoop h.mem bp n (h.mem a).ptr := by
  intro a ha
  obtain ⟨b, hb, rfl⟩ := mem_map.mp ha
  obtain ⟨x, y, rfl⟩ := append_of_mem hb
  have hl' : h.bottom :: l = x ++ b :: (y ++ t :: post) := by rw [hl]; simp
  obtain ⟨c, hc, hlt, hnext⟩ : ∃ c ∈ y ++ t :: post, c.addr < bp ∧
      (h.mem b.addr).ptr = c.addr := by
    rw [hf.next_eq hl']
    cases y with
    | nil => exact ⟨t, by simp, ht, rfl⟩
    | cons c y => exact ⟨c, by simp, hpre c (by simp), rfl⟩
  have hbc := hf.addr_lt hl' hc
  rw [freeLoop, hnext, if_neg (by omega), if_neg (by omega)]

omit hpre ht in
theorem freeLoop_high (hbase : h.base < bp) (n : Nat) : ∀ a ∈ post.map Block.addr,
      freeLoop h.mem bp (n + 1) a = freeLoop h.mem bp n (h.mem a).ptr := by
  intro a ha
  obtain ⟨b, hb, rfl⟩ := mem_map.mp ha
  have hlt := hpost b hb
  obtain ⟨x, y, rfl⟩ := append_of_mem hb
  have hl' : h.bottom :: l = (pre ++ t :: x) ++ b :: y := by rw [hl]; simp
  rw [freeLoop, if_neg (by omega)]
  have hnext := hf.next_eq hl'
  cases y with
  | nil =>
    have hbot : (h.mem b.addr).ptr = h.base := hnext
    rw [if_neg (by omega)]
  | cons c y =>
    have hc : (h.mem b.addr).ptr = c.addr := hnext
    have hbc := hf.addr_lt hl' (List.mem_cons_self)
    rw [if_neg (by omega)]

omit hpre in
theorem freeLoop_stop (hbase : h.base ≤ t.addr) (n : Nat) :
    freeLoop h.mem bp (n + 1) t.addr = some t.addr := by
  have hnext := hf.next_eq hl
  rw [freeLoop]
  cases post with
  | nil =>
    have hbot : (h.mem t.addr).ptr = h.base := hnext
    rw [if_neg (by omega), if_pos (by omega)]
  | cons c post =>
    have hc : (h.mem t.addr).ptr = c.addr := hnext
    have hlt := hpost c (by simp)
    rw [if_pos (by omega)]

omit hl hpre ht hpost in
theorem base_le {b : Block} (hb : b ∈ h.bottom :: l) : h.base ≤ b.addr := by
  rcases mem_cons.mp hb with rfl | hb
  · exact Nat.le_refl _
  · exact Nat.le_of_lt (hf.addr_lt (nil_append _).symm hb)

theorem freeLoop_eq {fuel : Nat}
    (hfuel : l.length + 1 ≤ fuel) : freeLoop h.mem bp fuel h.freep = some t.addr := by
  have hlen : l.length + 1 = pre.length + (post.length + 1) := by
    simpa using congrArg List.length hl
  have hbase : h.base ≤ t.addr := hf.base_le (by rw [hl]; simp)
  have hlinked := hf.stored.linked
  rw [hl, map_append, map_cons, Linked.append_iff] at hlinked
  -- from a block of `pre` the loop walks to `t`
  have hwalk : ∀ x y, pre = x ++ y → ∀ n, y.length + 1 ≤ n →
      freeLoop h.mem bp n ((y.map Block.addr).headD t.addr) = some t.addr := by
    intro x y hxy n hn
    rw [hxy, map_append, Linked.append_iff] at hlinked
    have hskip := hlinked.1.2.skip (fun k a ha =>
      hf.freeLoop_low hl hpre ht k a (by rw [hxy, map_append]; exact mem_append_right _ ha))
      (n - y.length - 1 + 1)
    rw [List.length_map, show y.length + (n - y.length - 1 + 1) = n by omega] at hskip
    exact hskip.trans (hf.freeLoop_stop hl ht hpost hbase _)
  obtain ⟨s, hs, hrover⟩ := mem_map.mp hf.rover
  rw [hl, mem_append, mem_cons] at hs
  rw [← hrover]
  rcases hs with hs | rfl | hs
  · obtain ⟨x, y, rfl⟩ := append_of_mem hs
    exact hwalk x (s :: y) rfl fuel (by simp at hlen ⊢; omega)
  · exact hwalk pre [] (by simp) fuel (by simp; omega)
  · -- from a block of `post` it walks to the end of the list and on from `base`
    obtain ⟨x, y, rfl⟩ := append_of_mem hs
    have hhigh : Linked (fun a => (h.mem a).ptr) h.base ((s :: y).map Block.addr) := by
      have htail := hlinked.2.2
      rw [map_append, Linked.append_iff] at htail
      exact htail.2
    have hskip := hhigh.skip (fun k a ha => hf.freeLoop_high hl
      hpost (Nat.lt_of_le_of_lt hbase ht) k a (by
        rw [map_append]
        exact mem_append_right _ ha)) (fuel - (y.length + 1))
    simp only [List.length_append, List.length_cons] at hlen
    rw [List.length_map, List.length_cons, Nat.add_sub_cancel' (by omega)] at hskip
    have hfrom := hwalk [] pre rfl (fuel - (y.length + 1)) (by omega)
    rw [head_eq hl] at hfrom
    exact hskip.trans hfrom

end

end

end FreeList

/-! ### The list with a block put in -/

/-- The block `b` in front of `l`, joined with the first block there where they touch. -/
def above (b : Block) : List Block → Block × List Block
  | [] => (b, [])
  | c :: l => if b.limit = c.addr then (b.join c, l) else (b, c :: l)

/-- The list from `t` on with `b` put in behind `t`. -/
def splice (t b : Block) (l : List Block) : List Block :=
  if t.limit = b.addr then t.join (above b l).1 :: (above b l).2
  else t :: (above b l).1 :: (above b l).2

section

variable {b : Block}

theorem above_cases (b : Block) (l : List Block) :
    (∃ c l', l = c :: l' ∧ b.limit = c.addr ∧ above b l = (b.join c, l')) ∨
      ((∀ c ∈ l.head?, b.limit ≠ c.addr) ∧ above b l = (b, l)) := by
  cases l with
  | nil => exact .inr ⟨by simp, rfl⟩
  | cons c l =>
    by_cases h : b.limit = c.addr
    · exact .inl ⟨c, l, rfl, h, if_pos h⟩
    · exact .inr ⟨by simpa using h, if_neg h⟩

theorem above_addr : (above b l).1.addr = b.addr := by
  rcases above_cases b l with ⟨c, l', -, -, h⟩ | ⟨-, h⟩ <;> rw [h]
  rfl

theorem above_size_le : b.size ≤ (above b l).1.size := by
  rcases above_cases b l with ⟨c, l', -, -, h⟩ | ⟨-, h⟩
  · rw [h]
    exact Nat.le_add_right _ _
  · exact Nat.le_of_eq (congrArg (·.1.size) h).symm

theorem above_suffix : (above b l).2 <:+ l := by
  rcases above_cases b l with ⟨c, l', rfl, -, h⟩ | ⟨-, h⟩
  · rw [h]
    exact List.suffix_cons c l'
  · exact (congrArg (·.2 <:+ l) h).mpr (List.suffix_refl l)

theorem above_cells :
    ((above b l).1 :: (above b l).2).flatMap Block.cells = (b :: l).flatMap Block.cells := by
  rcases above_cases b l with ⟨c, l', rfl, htouch, h⟩ | ⟨-, h⟩ <;> rw [h]
  simp only [List.flatMap_cons, Block.join_cells htouch, List.append_assoc]

theorem above_apart (hl : l.Pairwise Block.Below) (hb : ∀ c ∈ l, b.limit ≤ c.addr) :
    ((above b l).1 :: (above b l).2).Pairwise Block.Below := by
  rcases above_cases b l with ⟨c, l', rfl, htouch, h⟩ | ⟨hne, h⟩ <;> rw [h]
  · obtain ⟨hc, hrest⟩ := pairwise_cons.mp hl
    apply pairwise_cons.mpr ⟨_, hrest⟩
    intro d hd
    show (b.join c).limit < d.addr
    rw [Block.join_limit htouch]
    exact hc d hd
  · apply pairwise_cons.mpr ⟨_, hl⟩
    intro d hd
    cases l with
    | nil => cases hd
    | cons c l =>
      have hbc : b.limit < c.addr := Nat.lt_of_le_of_ne (hb c (by simp)) (hne c rfl)
      rcases mem_cons.mp hd with rfl | hd
      · exact hbc
      · have hcd : c.limit < d.addr := (pairwise_cons.mp hl).1 d hd
        show b.limit < d.addr
        unfold Block.limit at *
        omega

end

namespace FreeList

variable {h h' : Heap} {b p : Block} {fuel : Nat} {l' mid : List Block} (mid' : List Block)

section
variable (hf : FreeList h l) (hl : h.bottom :: l = pre ++ t :: post)
  (hsize : (h.mem b.addr).size = b.size) (ht : t.addr < b.addr)
  (hpost : ∀ c ∈ post, b.addr < c.addr)
  (hsum : t.size + b.size + (post.map Block.size).sum < 2 ^ 32)
include hf hl hsize ht hpost hsum

omit hsize ht hpost hsum in
theorem apart_at :
    (∀ c ∈ pre, c.limit < t.addr) ∧ (∀ c ∈ post, t.limit < c.addr) ∧
      pre.Pairwise Block.Below ∧ post.Pairwise Block.Below := by
  have hapart := hf.apart
  rw [hl, pairwise_append, pairwise_cons] at hapart
  exact ⟨fun c hc => hapart.2.2 c hc t (by simp), hapart.2.1.1, hapart.1, hapart.2.1.2⟩

omit hsum in
theorem joinUpper_above (hsum : b.size + (post.map Block.size).sum < 2 ^ 32) :
    joinUpper h.mem b.addr t.addr = update h.mem b.addr
      ⟨((above b post).2.map Block.addr).headD h.base, (above b post).1.size⟩ := by
  have hbase : h.base ≤ t.addr := hf.base_le (by rw [hl]; simp)
  have hnext := hf.next_eq hl
  have hne : (h.mem t.addr).ptr ≠ b.addr := by
    rw [hnext]
    cases post with
    | nil => exact fun heq => by simp at heq; omega
    | cons c post => exact Nat.ne_of_gt (hpost c (by simp))
  rw [joinUpper_eq (Nat.ne_of_lt ht) hne, hsize, hnext]
  congr 1
  rcases above_cases b post with ⟨c, l', rfl, htouch, habove⟩ | ⟨happart, habove⟩ <;> rw [habove]
  · have hl' : h.bottom :: l = (pre ++ [t]) ++ c :: l' := by rw [hl]; simp
    have hc : (h.mem c.addr).size = c.size := hf.stored.size c (by rw [hl]; simp)
    rw [map_cons, sum_cons] at hsum
    have htouch' : b.addr + 16 * b.size = c.addr := htouch
    rw [map_cons, List.headD_cons, if_pos htouch', hf.next_eq hl', hc, Nat.mod_eq_of_lt (by omega)]
    rfl
  · rw [if_neg]
    cases post with
    | nil =>
      show ¬ b.addr + 16 * b.size = h.base
      omega
    | cons c post => exact happart c rfl

theorem free_mem (hfuel : l.length + 1 ≤ fuel) :
    free fuel (b.addr + 16) h = some
      { h with
        mem := update (update h.mem b.addr
          ⟨((above b post).2.map Block.addr).headD h.base, (above b post).1.size⟩) t.addr
          (if t.limit = b.addr then ⟨((above b post).2.map Block.addr).headD h.base,
            (t.join (above b post).1).size⟩ else ⟨b.addr, t.size⟩)
        freep := t.addr } := by
  have hpre : ∀ c ∈ pre, c.addr < b.addr := by
    intro c hc
    have hlim := (hf.apart_at hl).1 c hc
    unfold Block.limit at hlim
    omega
  have htsize : (h.mem t.addr).size = t.size := hf.stored.size t (by rw [hl]; simp)
  have hupper := hf.joinUpper_above hl hsize ht hpost (by omega)
  have hle : (above b post).1.size ≤ b.size + (post.map Block.size).sum := by
    rcases above_cases b post with ⟨c, l', rfl, -, habove⟩ | ⟨-, habove⟩ <;> rw [habove]
    · simp only [Block.join, map_cons, sum_cons]; omega
    · exact Nat.le_add_right _ _
  unfold free
  simp only [Nat.add_sub_cancel, hf.freeLoop_eq hl hpre ht hpost hfuel, Option.bind_eq_bind,
    Option.bind_some, hupper]
  rw [joinLower_eq (Nat.ne_of_gt ht), update_self, update_of_ne (Nat.ne_of_lt ht), htsize]
  have hmod : (t.size + (above b post).1.size) % 2 ^ 32 = t.size + (above b post).1.size :=
    Nat.mod_eq_of_lt (by omega)
  simp only [hmod]
  rfl

omit hf hsize hpost hsum in
/-- `base`, which has no units, touches nothing above it, so it stays at the head. -/
theorem splice_bottom : ∃ l', h.bottom :: l' = pre ++ splice t b post := by
  cases pre with
  | nil =>
    rw [nil_append, List.cons.injEq] at hl
    have hne : ¬ t.limit = b.addr := by
      rw [← hl.1] at ht ⊢
      exact Nat.ne_of_lt ht
    exact ⟨_, by rw [splice, if_neg hne, hl.1]; rfl⟩
  | cons c pre =>
    rw [cons_append, List.cons.injEq] at hl
    exact ⟨pre ++ splice t b post, by rw [hl.1]; rfl⟩

omit hl hsize ht hpost hsum in
/-- A stretch of the list is replaced: the headers of the rest stay, and the new blocks lie between
the two sides. -/
theorem replace (hl : h.bottom :: l = pre ++ (p :: mid) ++ post) (hbase : h'.base = h.base)
    (hside : ∀ c ∈ pre ++ post, h'.mem c.addr = h.mem c.addr)
    (hstored : Stored h'.mem ((post.map Block.addr).headD h.base) mid')
    (hfirst : (mid'.map Block.addr).head? = some p.addr) (hapart : mid'.Pairwise Block.Below)
    (habove : ∀ c ∈ mid', p.addr ≤ c.addr) (hbelow : ∀ c ∈ mid', ∀ d ∈ post, c.limit < d.addr)
    (hrover : h'.freep ∈ mid'.map Block.addr)
    (hl' : h.bottom :: l' = pre ++ mid' ++ post) : FreeList h' l' := by
  have hbot : h'.bottom = h.bottom := by unfold Heap.bottom; rw [hbase]
  have hold := hf.stored
  have holdApart := hf.apart
  rw [hl, Stored.append_iff, Stored.append_iff] at hold
  rw [hl, pairwise_append, pairwise_append] at holdApart
  obtain ⟨⟨hpre, -, hcross⟩, hpost, hover⟩ := holdApart
  constructor
  · rw [hbot, hbase, hl', Stored.append_iff, Stored.append_iff]
    refine ⟨⟨?_, hstored⟩, hold.2.congr fun c hc => hside c (mem_append_right pre hc)⟩
    have hhead : (mid'.map Block.addr).headD ((post.map Block.addr).headD h.base) = p.addr := by
      rw [List.headD_eq_head?_getD, hfirst, Option.getD_some]
    rw [hhead]
    exact hold.1.1.congr fun c hc => hside c (mem_append_left post hc)
  · rw [hbot, hl', pairwise_append, pairwise_append]
    refine ⟨⟨hpre, hapart, ?_⟩, hpost, ?_⟩
    · intro c hc d hd
      exact Nat.lt_of_lt_of_le (hcross c hc p (by simp)) (habove d hd)
    · intro c hc d hd
      rcases mem_append.mp hc with hc | hc
      · exact hover c (mem_append_left _ hc) d hd
      · exact hbelow c hc d hd
  · rw [hbot, hl', map_append, map_append]
    exact mem_append_left _ (mem_append_right _ hrover)

omit hf hl hsize ht hpost hsum in
theorem bottom_head (hl : h.bottom :: l = pre ++ (p :: mid) ++ post) :
    ∃ l', h.bottom :: l' = pre ++ (p :: mid') ++ post := by
  cases pre with
  | nil => exact ⟨mid' ++ post, by rw [(List.cons.inj hl).1]; rfl⟩
  | cons c pre => exact ⟨pre ++ (p :: mid') ++ post, by rw [(List.cons.inj hl).1]; rfl⟩

omit hsize hsum in
/-- The list after `free`: the block is in its place, joined with what it touches. -/
theorem free_list (hlow : t.limit ≤ b.addr) (hhigh : ∀ c ∈ post, b.limit ≤ c.addr)
    (hl' : h.bottom :: l' = pre ++ splice t b post) (hbase : h'.base = h.base)
    (hfreep : h'.freep = t.addr) (hother : ∀ a, a ≠ b.addr → a ≠ t.addr → h'.mem a = h.mem a)
    (hb : h'.mem b.addr = ⟨((above b post).2.map Block.addr).headD h.base, (above b post).1.size⟩)
    (hmem : h'.mem t.addr = if t.limit = b.addr then
      ⟨((above b post).2.map Block.addr).headD h.base, (t.join (above b post).1).size⟩
      else ⟨b.addr, t.size⟩) : FreeList h' l' := by
  obtain ⟨hpre, -, -, hposts⟩ := hf.apart_at hl
  obtain ⟨habove, -⟩ := pairwise_cons.mp (above_apart hposts hhigh)
  have haddr := above_addr (b := b) (l := post)
  obtain ⟨x, hx⟩ := above_suffix
  have hl1 : h.bottom :: l = pre ++ (t :: x) ++ (above b post).2 := by
    rw [hl, List.append_assoc, cons_append, hx]
  have hside : ∀ c ∈ pre ++ (above b post).2, h'.mem c.addr = h.mem c.addr := by
    intro c hc
    rcases mem_append.mp hc with hc | hc
    · have hlim := hpre c hc
      unfold Block.limit at hlim
      exact hother _ (by omega) (by omega)
    · have hlt := hpost c (above_suffix.subset hc)
      exact hother _ (by omega) (by omega)
  by_cases htouch : t.limit = b.addr
  · rw [if_pos htouch] at hmem
    rw [splice, if_pos htouch] at hl'
    have hlim : (t.join (above b post).1).limit = (above b post).1.limit :=
      Block.join_limit (htouch.trans haddr.symm)
    apply hf.replace [t.join (above b post).1] hl1 hbase hside
    · exact Stored.cons .nil hmem
    · rfl
    · simp
    · simp [Block.join]
    · intro c hc
      rw [List.mem_singleton.mp hc, hlim]
      exact habove
    · simp [hfreep, Block.join]
    · rw [hl']; simp
  · rw [if_neg htouch] at hmem
    rw [splice, if_neg htouch] at hl'
    have hlt : t.limit < (above b post).1.addr := by
      rw [haddr]
      exact Nat.lt_of_le_of_ne hlow htouch
    apply hf.replace [t, (above b post).1] hl1 hbase hside
    · have hupper : Stored h'.mem (((above b post).2.map Block.addr).headD h.base)
          [(above b post).1] := Stored.cons .nil (haddr.symm ▸ hb)
      apply hupper.cons
      rw [hmem, ← haddr]
      rfl
    · rfl
    · exact List.pairwise_pair.mpr hlt
    · simp [haddr, Nat.le_of_lt ht]
    · intro c hc d hd
      rcases mem_pair.mp hc with rfl | rfl
      · exact Nat.lt_of_le_of_lt hlow (hpost d (above_suffix.subset hd))
      · exact habove d hd
    · simp [hfreep]
    · rw [hl']; simp

theorem free_spec (hlow : t.limit ≤ b.addr) (hhigh : ∀ c ∈ post, b.limit ≤ c.addr)
    (hfuel : l.length + 1 ≤ fuel) :
    ∃ h' l', free fuel (b.addr + 16) h = some h' ∧ h'.base = h.base ∧
      (∀ a, a ≠ b.addr → a ≠ t.addr → h'.mem a = h.mem a) ∧
      h.bottom :: l' = pre ++ splice t b post ∧ FreeList h' l' := by
  have hmem := hf.free_mem hl hsize ht hpost hsum hfuel
  obtain ⟨l', hl'⟩ := splice_bottom hl ht
  have hother : ∀ v w a, a ≠ b.addr → a ≠ t.addr →
      update (update h.mem b.addr v) t.addr w a = h.mem a := fun v w a hab hat =>
    (update_of_ne hat _ _).trans (update_of_ne hab _ _)
  refine ⟨_, l', hmem, rfl, hother _ _, hl', ?_⟩
  apply hf.free_list hl ht hpost hlow hhigh hl'
  · rfl
  · rfl
  · exact hother _ _
  · show update _ _ _ _ = _
    rw [update_of_ne (Nat.ne_of_gt ht), update_self]
  · exact update_self _ _ _

end

theorem unlink (hf : FreeList h l) (hl : h.bottom :: l = pre ++ p :: t :: post)
    (h' : Heap) (hbase : h'.base = h.base) (hfreep : h'.freep = p.addr)
    (hmem : h'.mem = setPtr h.mem p.addr (h.mem t.addr).ptr) :
    ∃ l', h.bottom :: l' = pre ++ p :: post ∧ FreeList h' l' := by
  have hl1 : h.bottom :: l = pre ++ [p, t] ++ post := by rw [hl]; simp
  have hl2 : h.bottom :: l = (pre ++ [p]) ++ t :: post := by rw [hl]; simp
  obtain ⟨hpre, hpost, -, -⟩ := hf.apart_at hl
  obtain ⟨l', hl'⟩ := bottom_head [] hl1
  have hp : (h.mem p.addr).size = p.size := hf.stored.size p (by rw [hl]; simp)
  refine ⟨l', by simpa using hl', hf.replace [p] hl1 hbase ?_ ?_ rfl (by simp) (by simp)
    ?_ (by simp [hfreep]) hl'⟩
  · intro c hc
    have hne : c.addr ≠ p.addr := by
      rcases mem_append.mp hc with hc | hc
      · have hlim := hpre c hc
        unfold Block.limit at hlim
        omega
      · have hlim := hpost c (List.mem_cons_of_mem t hc)
        unfold Block.limit at hlim
        omega
    rw [hmem, setPtr_of_ne _ _ hne]
  · apply Stored.cons .nil
    rw [hmem, setPtr_self, hf.next_eq hl2, hp]
    rfl
  · intro c hc d hd
    rw [List.mem_singleton.mp hc]
    exact hpost d (List.mem_cons_of_mem t hd)

theorem shrink (hf : FreeList h l) (hl : h.bottom :: l = pre ++ p :: t :: post)
    (h' : Heap) {k : Nat} (hk : k < t.size) (hpos : 0 < k) (hbase : h'.base = h.base)
    (hfreep : h'.freep = p.addr) (ht : h'.mem t.addr = ⟨(h.mem t.addr).ptr, k⟩)
    (hother : ∀ a, a ≠ t.addr → a ≠ t.addr + 16 * k → h'.mem a = h.mem a) :
    ∃ l', h.bottom :: l' = pre ++ p :: ⟨t.addr, k⟩ :: post ∧ FreeList h' l' := by
  have hl1 : h.bottom :: l = pre ++ [p, t] ++ post := by rw [hl]; simp
  have hl2 : h.bottom :: l = (pre ++ [p]) ++ t :: post := by rw [hl]; simp
  obtain ⟨hpre, hpt, -, -⟩ := hf.apart_at hl
  obtain ⟨-, hpost, -, -⟩ := hf.apart_at hl2
  have hbefore : p.limit < t.addr := hpt t (by simp)
  have hother' : ∀ c : Block, c.addr < t.addr ∨ t.limit < c.addr →
      h'.mem c.addr = h.mem c.addr := by
    unfold Block.limit
    intro c hc
    exact hother _ (by omega) (by omega)
  have hpsame : h'.mem p.addr = h.mem p.addr := by
    apply hother' p
    unfold Block.limit at hbefore
    omega
  obtain ⟨l', hl'⟩ := bottom_head [⟨t.addr, k⟩] hl1
  refine ⟨l', by simpa using hl', hf.replace [p, ⟨t.addr, k⟩] hl1 hbase ?_ ?_ rfl ?_ ?_
    ?_ (by simp [hfreep]) hl'⟩
  · intro c hc
    apply hother'
    rcases mem_append.mp hc with hc | hc
    · have hlim := hpre c hc
      unfold Block.limit at *
      omega
    · exact .inr (hpost c hc)
  · have hnext : (h.mem p.addr).ptr = t.addr := hf.next_eq hl
    have hp : (h.mem p.addr).size = p.size := hf.stored.size p (by rw [hl]; simp)
    have htail : Stored h'.mem ((post.map Block.addr).headD h.base) [⟨t.addr, k⟩] := by
      apply Stored.cons .nil
      rw [ht, hf.next_eq hl2]
      rfl
    apply htail.cons
    rw [hpsame, ← hp]
    exact congrArg (Header.mk · _) hnext
  · exact List.pairwise_pair.mpr hbefore
  · simp only [mem_cons, List.not_mem_nil, or_false, forall_eq_or_imp, forall_eq]
    unfold Block.limit at hbefore
    omega
  · intro c hc d hd
    have hlim := hpost d hd
    rcases mem_pair.mp hc with rfl | rfl
    · unfold Block.limit at *
      omega
    · simp only [Block.limit] at *
      omega

end FreeList

end Umalloc

end Xv6
