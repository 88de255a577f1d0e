import Xv6.Vm.Exec
import Xv6.Vm.Proofs.Tables

/-!
# Loading a program

The new image of a process while `exec` builds it. Every page of it has been taken from the free list, so
that the pages of a file's segments are those of cleared pages with the bytes of the file copied to them.
-/

namespace Xv6.Vm

open PageTable (mem_frames frames_congr)
open Function
open BitVec (ofNat)

variable {T O : Multiset Nat} {w w' w'' : KWorld} {t : PageTable} {sz trampoline tf fsz va u : Nat}

structure Stored (S : Multiset Nat) (w w' : KWorld) : Prop where
  rest : w' = { w with data := w'.data }
  out : ∀ p, p ∉ S → w'.data p = w.data p

theorem Stored.refl (S : Multiset Nat) (w : KWorld) : Stored S w w := ⟨rfl, fun _ _ => rfl⟩

variable {off : BitVec 32} {S : Multiset Nat} {n v : Nat}

theorem Stored.trans (h : Stored S w w') (h' : Stored S w' w'') : Stored S w w'' := by
  refine ⟨?_, fun p hp => by rw [h'.out p hp, h.out p hp]⟩
  have := h'.rest
  rw [h.rest] at this
  exact this

theorem Stored.mono {S' : Multiset Nat} (h : Stored S w w') (hs : ∀ p ∈ S, p ∈ S') :
    Stored S' w w' :=
  ⟨h.rest, fun p hp => h.out p fun hmem => hp (hs p hmem)⟩

theorem stored_setPage (w : KWorld) (p : Nat) (d : Bytes PGSIZE) :
    Stored {p} w { w with data := update w.data p d } :=
  ⟨rfl, fun _ hq => update_of_ne (fun h => hq (Multiset.mem_singleton.mpr h)) ..⟩

theorem Stored.moved (h : Stored S w w') (hs : ∀ p ∈ S, p ∈ T) : Moved T w w' := by
  refine ⟨?_, fun p hp => h.out p fun hmem => hp (hs p hmem)⟩
  rw [h.rest]

theorem Stored.acc (h : Stored S w w') (hacc : Acc T w O) : Acc T w' O := by
  have hfree : w'.free = w.free := by rw [h.rest]
  have hfirst : w'.first = w.first := by rw [h.rest]
  exact ⟨by rw [hfree]; exact hacc.sum, hacc.nodup, by rw [hfirst]; exact hacc.range,
    by rw [hfirst]; exact hacc.base⟩

theorem PageTable.frames_inj (h : (t.frames 0 n).Nodup) (hu : u < n) (hv : v < n)
    (heq : (t.leaf u).ppn = (t.leaf v).ppn) : u = v := by
  induction n with
  | zero => omega
  | succ n ih =>
    rw [frames_succ, Nat.zero_add, Multiset.nodup_cons] at h
    have hin : ∀ k < n, (t.leaf k).ppn ∈ t.frames 0 n := fun k hk =>
      mem_frames.mpr ⟨k, hk, by rw [Nat.zero_add]⟩
    by_cases hun : u = n
    · by_cases hvn : v = n
      · rw [hun, hvn]
      · exact absurd (hin v (by omega)) (by rw [← heq, hun]; exact h.1)
    · by_cases hvn : v = n
      · exact absurd (hin u (by omega)) (by rw [heq, hvn]; exact h.1)
      · exact ih h.2 (by omega) (by omega)

theorem walkaddr_user (hwf : t.Wf) (hva : va < MAXVA)
    (hflags : (t.leaf (va / PGSIZE)).flags = userFlags) :
    walkaddr t va = Prog.pure (some (t.leaf (va / PGSIZE)).ppn) := by
  have hv : (t.leaf (va / PGSIZE)).has PTE_V = true := (leaf_user hflags).1
  have hu : (t.leaf (va / PGSIZE)).has PTE_U = true := by
    rw [Pte.has, hflags]
    decide
  rw [walkaddr, if_neg (not_le.mpr hva),
    walk_found hwf hva false (hwf.leaf _ (leaf_user hflags).ne_zero)]
  simp only [Prog.pure_bind, hv, hu, Bool.true_eq_false, if_false, Prog.pure_eq]

/-- The image: user memory of readable, writable and executable pages. -/
structure Image (trampoline tf : Nat) (T O : Multiset Nat) (w : KWorld) (t : PageTable) (sz : Nat) :
    Prop where
  full : Full trampoline tf t sz
  user : ∀ v < pages sz, (t.leaf v).flags = userFlags
  acc : Acc T w (t.nodes + (t.frames 0 (pages sz) + O))

namespace Image

variable (h : Image trampoline tf T O w t sz)

include h

theorem stored (hs : Stored S w w') : Image trampoline tf T O w' t sz :=
  ⟨h.full, h.user, hs.acc h.acc⟩

theorem frames_nodup : (t.frames 0 (pages sz)).Nodup := by
  have hnd := h.acc.owned_nodup
  rw [Multiset.nodup_add, Multiset.nodup_add] at hnd
  exact hnd.2.1.1

theorem inj (hu : u < pages sz) (hv : v < pages sz) (huv : u ≠ v) :
    (t.leaf u).ppn ≠ (t.leaf v).ppn := fun heq => huv (PageTable.frames_inj h.frames_nodup hu hv heq)

theorem mem (hv : v < pages sz) : (t.leaf v).ppn ∈ T :=
  h.acc.mem_of_owned (leaf_mem_owned hv _)

theorem walkaddr (hv : v < pages sz) :
    walkaddr t (v * PGSIZE) = Prog.pure (some (t.leaf v).ppn) := by
  have hlim := h.acc.pages_le
  have hva : v * PGSIZE < MAXVA := by
    show v * 4096 < 2 ^ 38
    omega
  rw [walkaddr_user h.full.wf hva (by rw [page_div]; exact h.user v hv), page_div]

end Image

/-! ## `loadseg` -/

/-- The bytes that `loadseg` reads for page `k` of a segment. -/
def chunk (file : List (BitVec 8)) (off : BitVec 32) (fsz k : Nat) : List (BitVec 8) :=
  readBytes file (off + BitVec.ofNat 32 (k * PGSIZE)) (BitVec.ofNat 32 (min PGSIZE (fsz - k * PGSIZE)))

theorem frames_mem (hu : v ≤ u) (hu' : u < v + n) : (t.leaf u).ppn ∈ t.frames v n :=
  mem_frames.mpr ⟨u - v, by omega, by rw [show v + (u - v) = u by omega]⟩

theorem frames_sub {k m : Nat} (h : v ≤ k) (h' : k + m ≤ v + n) {p : Nat} (hp : p ∈ t.frames k m) :
    p ∈ t.frames v n := by
  obtain ⟨j, hj, rfl⟩ := mem_frames.mp hp
  exact frames_mem (by omega) (by omega)

theorem wp_loadsegLoop (n : Nat) :
    ∀ {w : KWorld} {j : Nat} {Q : Bool → KWorld → Prop}, Image trampoline tf T O w t sz →
      v + pages fsz ≤ pages sz → j + n = pages fsz →
      (∀ w', Stored (t.frames (v + j) n) w w' → Q false w') →
      (∀ w', Stored (t.frames (v + j) n) w w' →
        (∀ k, j ≤ k → k < pages fsz →
          (chunk w.file off fsz k).length = min PGSIZE (fsz - k * PGSIZE) ∧
          w'.data (t.leaf (v + k)).ppn =
            (w.data (t.leaf (v + k)).ppn).blit 0 (chunk w.file off fsz k)) → Q true w') →
      (loadsegLoop t (v * PGSIZE) off fsz n (j * PGSIZE)).wp vmWp Q w := by
  induction n with
  | zero =>
    intro w j Q himg hv hj hfail hok
    exact hok w (.refl _ w) fun k hk hk' => by omega
  | succ n ih =>
    intro w j Q himg hv hj hfail hok
    have hchunk : (if fsz - j * PGSIZE < PGSIZE then fsz - j * PGSIZE else PGSIZE) =
        min PGSIZE (fsz - j * PGSIZE) := by
      rw [Nat.min_def]
      split_ifs <;> omega
    have hvj : v + j < pages sz := by omega
    rw [loadsegLoop, ← Nat.add_mul, himg.walkaddr hvj, hchunk]
    set p := (t.leaf (v + j)).ppn with hp
    set d := (w.data p).blit 0 (chunk w.file off fsz j) with hd
    show Prog.wp vmWp (if (chunk w.file off fsz j).length ≠ min PGSIZE (fsz - j * PGSIZE)
      then Prog.pure false else loadsegLoop t (v * PGSIZE) off fsz n (j * PGSIZE + PGSIZE)) Q
      { w with data := update w.data p d }
    have hst : Stored (t.frames (v + j) (n + 1)) w { w with data := update w.data p d } :=
      (stored_setPage w p d).mono fun q hq => by
        rw [Multiset.mem_singleton.mp hq]
        exact frames_mem le_rfl (by omega)
    have hsub : ∀ q ∈ t.frames (v + (j + 1)) n, q ∈ t.frames (v + j) (n + 1) := fun q hq =>
      frames_sub (by omega) (by omega) hq
    by_cases hlen : (chunk w.file off fsz j).length = min PGSIZE (fsz - j * PGSIZE)
    · rw [if_neg (not_not.mpr hlen), ← Nat.succ_mul]
      refine ih (himg.stored hst) hv (by omega) (fun w' hw' => hfail w' (hst.trans (hw'.mono hsub)))
        fun w' hw' hin => hok w' (hst.trans (hw'.mono hsub)) fun k hk hk' => ?_
      by_cases hkj : k = j
      · rw [hkj]
        refine ⟨hlen, ?_⟩
        rw [hw'.out _ fun hmem => ?_]
        · exact update_self ..
        · obtain ⟨m, hm, heq⟩ := mem_frames.mp hmem
          exact himg.inj (by omega) (by omega) (by omega) heq
      · obtain ⟨hl, hdata⟩ := hin k (by omega) hk'
        refine ⟨hl, hdata.trans ?_⟩
        have hne : (t.leaf (v + k)).ppn ≠ p := himg.inj (by omega) (by omega) (by omega)
        simp only [update_of_ne hne]
    · rw [if_pos hlen]
      exact hfail _ hst

theorem wp_loadseg (himg : Image trampoline tf T O w t sz) (hva : va % PGSIZE = 0)
    (hmapped : va / PGSIZE + pages fsz ≤ pages sz) {Q : Bool → KWorld → Prop}
    (hfail : ∀ w', Stored (t.frames (va / PGSIZE) (pages fsz)) w w' → Q false w')
    (hok : ∀ w', Stored (t.frames (va / PGSIZE) (pages fsz)) w w' →
      (∀ k < pages fsz, (chunk w.file off fsz k).length = min PGSIZE (fsz - k * PGSIZE) ∧
        w'.data (t.leaf (va / PGSIZE + k)).ppn =
          (w.data (t.leaf (va / PGSIZE + k)).ppn).blit 0 (chunk w.file off fsz k)) → Q true w') :
    (loadseg t va off fsz).wp vmWp Q w := by
  have heq : va = va / PGSIZE * PGSIZE := (Nat.div_mul_cancel (Nat.dvd_of_mod_eq_zero hva)).symm
  rw [loadseg, if_neg (not_not.mpr hva)]
  have hloop := wp_loadsegLoop (pages fsz) himg hmapped (Nat.zero_add _) hfail
    fun w' hw' hin => hok w' hw' fun k hk => hin k (Nat.zero_le k) hk
  rw [Nat.zero_mul, ← heq] at hloop
  exact hloop

/-- `uvmalloc` for the image; a size that is not larger changes nothing. -/
theorem Image.wp_uvmalloc (himg : Image trampoline tf T O w t sz) {newsz : Nat}
    {Q : Nat × PageTable → KWorld → Prop}
    (hfail : ∀ t' w', Image trampoline tf T O w' t' sz → Moved T w w' → Q (0, t') w')
    (hok : ∀ t' w', Image trampoline tf T O w' t' (max sz newsz) → Moved T w w' →
      (∀ v < pages sz, t'.leaf v = t.leaf v ∧ w'.data (t.leaf v).ppn = w.data (t.leaf v).ppn) →
      (∀ v, pages sz ≤ v → v < pages (max sz newsz) → w'.data (t'.leaf v).ppn = fillPage 0) →
      Q (max sz newsz, t') w') : (uvmalloc t sz newsz).wp vmWp Q w := by
  by_cases hle : sz ≤ newsz
  · have hfull := himg.full
    rw [Nat.max_eq_right hle] at hok
    have hmono := pages_mono hle
    refine Vm.wp_uvmalloc hle himg.acc.pages_le hfull.wf hfull.rest himg.acc
      (fun t' w' hwf' hleaf ha' hm => ?_) fun t' w' hwf' hout hin ha' htk hlim => ?_
    · have hframes : t'.frames 0 (pages sz) = t.frames 0 (pages sz) :=
        frames_congr fun u _ _ => by rw [hleaf]
      refine hfail t' w' ⟨⟨⟨hwf', ?_, ?_⟩, ?_, ?_, ?_⟩, ?_, by rw [hframes]; exact ha'⟩ hm <;> rw [hleaf]
      exacts [hfull.mapped, hfull.rest, hfull.trapframe, hfull.trampoline, hfull.above, himg.user]
    · have htop : pages newsz ≤ topPage := by
        show pages newsz ≤ (2 ^ 38 - 4096 - 4096) / 4096
        omega
      have hlast : pages newsz ≤ lastPage := htop.trans (by decide)
      have huser : ∀ v < pages newsz, (t'.leaf v).flags = userFlags := fun v hv => by
        by_cases hvo : v < pages sz
        · rw [hout v (.inl hvo)]
          exact himg.user v hvo
        · exact (hin v (by omega) hv).1
      have hframes : t'.frames 0 (pages newsz) = t.frames 0 (pages sz) +
          t'.frames (pages sz) (pages newsz - pages sz) := by
        rw [t'.frames_split hmono]
        exact congrArg (· + _) (frames_congr fun u _ hu => by rw [hout u (.inl (by omega))])
      refine hok t' w' ⟨⟨⟨hwf', fun v hv => leaf_user (huser v hv), fun v hv hv' => ?_⟩, ?_, ?_,
        fun v hv => ?_⟩, huser, ha'.congr ?_⟩ (htk.moved himg.acc)
        (fun v hv => ⟨hout v (.inl hv), htk.out _ (himg.acc.not_free (leaf_mem_owned hv _))⟩)
        fun v hv hv' => (hin v hv hv').2
      · rw [hout v (.inr hv)]
        exact hfull.rest v (hmono.trans hv) hv'
      · rw [hout _ (.inr htop)]
        exact hfull.trapframe
      · rw [hout _ (.inr hlast)]
        exact hfull.trampoline
      · rw [hout v (.inr (hlast.trans hv.le))]
        exact hfull.above v hv
      · rw [hframes]
        abel
  · have hmax : max sz newsz = sz := Nat.max_eq_left (by omega)
    rw [hmax] at hok
    rw [uvmalloc, if_pos (by omega)]
    exact hok t w himg (.refl T w) (fun _ _ => ⟨rfl, rfl⟩) fun v hv hv' => by omega

/-! ## The segments of a file -/

namespace Proghdr

def Has (ph : Proghdr) (v : Nat) : Prop := ph.vaddr / PGSIZE ≤ v ∧ v < pages (ph.vaddr + ph.memsz)

def Apart (a b : Proghdr) : Prop := ∀ v, ¬ (a.Has v ∧ b.Has v)

/-- The bytes of page `k` of the segment, as `loadseg` reads them. -/
def chunk (file : List (BitVec 8)) (ph : Proghdr) (k : Nat) : List (BitVec 8) :=
  Vm.chunk file (BitVec.ofNat 32 ph.off) ph.filesz k

end Proghdr

/-- The segments `L` are in memory, and the rest of it is cleared. -/
structure Holds (file : List (BitVec 8)) (w : KWorld) (t : PageTable) (sz : Nat) (L : List Proghdr) :
    Prop where
  fits : ∀ ph ∈ L, ph.vaddr % PGSIZE = 0 ∧ ph.filesz ≤ ph.memsz ∧ ph.vaddr + ph.memsz ≤ sz
  read : ∀ ph ∈ L, ∀ k < pages ph.filesz,
    (ph.chunk file k).length = min PGSIZE (ph.filesz - k * PGSIZE)
  zero : ∀ v < pages sz, (∀ ph ∈ L, ¬ ph.Has v) → w.data (t.leaf v).ppn = fillPage 0
  page : L.Pairwise Proghdr.Apart → ∀ ph ∈ L, ∀ v, ph.Has v →
    w.data (t.leaf v).ppn = (fillPage 0).blit 0
      (if v - ph.vaddr / PGSIZE < pages ph.filesz then ph.chunk file (v - ph.vaddr / PGSIZE) else [])

theorem pages_add (hva : va % PGSIZE = 0) (m : Nat) : pages (va + m) = va / PGSIZE + pages m := by
  have hva : va % 4096 = 0 := hva
  show (va + m + 4096 - 1) / 4096 = va / 4096 + (m + 4096 - 1) / 4096
  omega

theorem Bytes.blit_nil (b : Bytes n) (off : Nat) : b.blit off [] = b := by
  refine Bytes.ext_byte fun i hi => ?_
  rw [Bytes.byte_blit _ _ _ hi]
  simp

section

variable {file : List (BitVec 8)} {L : List Proghdr}

theorem Holds.empty (w : KWorld) (t : PageTable) : Holds file w t 0 [] :=
  ⟨fun _ h => absurd h List.not_mem_nil, fun _ h => absurd h List.not_mem_nil,
    fun v hv => absurd hv (Nat.not_lt_zero v), fun _ _ h => absurd h List.not_mem_nil⟩

theorem Holds.grow (h : Holds file w t sz L) {sz' : Nat} {t' : PageTable} (hle : sz ≤ sz')
    (hkeep : ∀ v < pages sz, t'.leaf v = t.leaf v ∧ w'.data (t.leaf v).ppn = w.data (t.leaf v).ppn)
    (hzero : ∀ v, pages sz ≤ v → v < pages sz' → w'.data (t'.leaf v).ppn = fillPage 0) :
    Holds file w' t' sz' L := by
  refine ⟨fun ph hph => ?_, h.read, fun v hv hno => ?_, fun hpw ph hph v hv => ?_⟩
  · obtain ⟨h1, h2, h3⟩ := h.fits ph hph
    exact ⟨h1, h2, h3.trans hle⟩
  · by_cases hvo : v < pages sz
    · rw [(hkeep v hvo).1, (hkeep v hvo).2]
      exact h.zero v hvo hno
    · exact hzero v (by omega) hv
  · have hvo : v < pages sz := lt_of_lt_of_le hv.2 (pages_mono (h.fits ph hph).2.2)
    rw [(hkeep v hvo).1, (hkeep v hvo).2]
    exact h.page hpw ph hph v hv

theorem Holds.load (h : Holds file w t sz L) (himg : Image trampoline tf T O w t sz) {ph : Proghdr}
    (hva : ph.vaddr % PGSIZE = 0) (hfile : ph.filesz ≤ ph.memsz) (hfits : ph.vaddr + ph.memsz ≤ sz)
    (hst : Stored (t.frames (ph.vaddr / PGSIZE) (pages ph.filesz)) w w')
    (hin : ∀ k < pages ph.filesz, (ph.chunk file k).length = min PGSIZE (ph.filesz - k * PGSIZE) ∧
      w'.data (t.leaf (ph.vaddr / PGSIZE + k)).ppn =
        (w.data (t.leaf (ph.vaddr / PGSIZE + k)).ppn).blit 0 (ph.chunk file k)) :
    Holds file w' t sz (L ++ [ph]) := by
  have hmem := pages_add hva ph.memsz
  have hfsz := pages_mono hfile
  have hsz := pages_mono hfits
  -- the other pages stay
  have hkeep : ∀ v < pages sz, (v < ph.vaddr / PGSIZE ∨ ph.vaddr / PGSIZE + pages ph.filesz ≤ v) →
      w'.data (t.leaf v).ppn = w.data (t.leaf v).ppn := fun v hv hout => by
    refine hst.out _ fun hmem => ?_
    obtain ⟨k, hk, heq⟩ := mem_frames.mp hmem
    exact himg.inj (by omega) hv (by omega) heq
  refine ⟨fun a ha => ?_, fun a ha => ?_, fun v hv hno => ?_, fun hpw a ha v hv => ?_⟩
  · rcases List.mem_append.mp ha with ha | ha
    · exact h.fits a ha
    · rw [List.mem_singleton.mp ha]
      exact ⟨hva, hfile, hfits⟩
  · rcases List.mem_append.mp ha with ha | ha
    · exact h.read a ha
    · rw [List.mem_singleton.mp ha]
      exact fun k hk => (hin k hk).1
  · have hnot : ¬ (ph.vaddr / PGSIZE ≤ v ∧ v < pages (ph.vaddr + ph.memsz)) :=
      hno ph (List.mem_append.mpr (.inr (List.mem_singleton_self ph)))
    rw [hkeep v hv (by omega)]
    exact h.zero v hv fun a ha => hno a (List.mem_append.mpr (.inl ha))
  · obtain ⟨hpwL, -, happ⟩ := List.pairwise_append.mp hpw
    have happ : ∀ a ∈ L, a.Apart ph := fun a ha => happ a ha ph (List.mem_singleton_self ph)
    rcases List.mem_append.mp ha with ha | ha
    · have hnot : ¬ (ph.vaddr / PGSIZE ≤ v ∧ v < pages (ph.vaddr + ph.memsz)) := fun hp =>
        happ a ha v ⟨hv, hp⟩
      have hvo : v < pages sz := lt_of_lt_of_le hv.2 (pages_mono (h.fits a ha).2.2)
      rw [hkeep v hvo (by omega)]
      exact h.page hpwL a ha v hv
    · rw [List.mem_singleton.mp ha] at hv ⊢
      have hvo : v < pages sz := lt_of_lt_of_le hv.2 hsz
      have hv1 := hv.1
      have hold := h.zero v hvo fun a ha hhas => happ a ha v ⟨hhas, hv⟩
      by_cases hk : v - ph.vaddr / PGSIZE < pages ph.filesz
      · rw [if_pos hk]
        have := (hin _ hk).2
        rwa [show ph.vaddr / PGSIZE + (v - ph.vaddr / PGSIZE) = v by omega, hold] at this
      · rw [if_neg hk, Bytes.blit_nil, hkeep v hvo (by omega), hold]

end

/-! ## The loop over the program headers -/

theorem field_lt (l : List (BitVec 8)) (k off : Nat) : field l k off < 256 ^ k := by
  induction k generalizing off with
  | zero => exact Nat.one_pos
  | succ k ih =>
    have hr := ih (off + 1)
    rw [field, Nat.pow_succ]
    omega

/-- The reads of the `n` program headers from `off` on. -/
def headers (file : List (BitVec 8)) : Nat → BitVec 32 → List (List (BitVec 8))
  | 0, _ => []
  | n + 1, off => readBytes file off (BitVec.ofNat 32 phSize) ::
      headers file n (off + BitVec.ofNat 32 phSize)

def loads (file : List (BitVec 8)) (n : Nat) (off : BitVec 32) : List Proghdr :=
  ((headers file n off).map Proghdr.ofBytes).filter fun ph => ph.type = ELF_PROG_LOAD

theorem end_eq {vaddr memsz : Nat} (hv : vaddr < 2 ^ 64) (hm : memsz < 2 ^ 64)
    (h : ¬ (vaddr + memsz) % 2 ^ 64 < vaddr) : (vaddr + memsz) % 2 ^ 64 = vaddr + memsz := by
  omega

@[simp] theorem vmWp_readi {n : BitVec 32} {Q : List (BitVec 8) → KWorld → Prop} :
    vmWp _ (.readi off n) Q w ↔ Q (readBytes w.file off n) w := Iff.rfl

theorem Moved.file (h : Moved T w w') : w'.file = w.file := by rw [h.rest]

theorem wp_loadProgram {file : List (BitVec 8)} (n : Nat) :
    ∀ {w : KWorld} {t : PageTable} {sz : Nat} {off : BitVec 32} {L : List Proghdr}
      {Q : Bool × PageTable × Nat → KWorld → Prop}, w.file = file →
      Image trampoline tf T O w t sz → Holds file w t sz L →
      (∀ t' w' sz', Image trampoline tf T O w' t' sz' → Moved T w w' → Q (false, t', sz') w') →
      (∀ t' w' sz', Image trampoline tf T O w' t' sz' →
        Holds file w' t' sz' (L ++ loads file n off) →
        (∀ l ∈ headers file n off, l.length = phSize) → Moved T w w' → Q (true, t', sz') w') →
      (loadProgram n off t sz).wp vmWp Q w := by
  induction n with
  | zero =>
    intro w t sz off L Q hfile himg hholds hfail hok
    exact hok t w sz himg (by rw [show loads file 0 off = [] from rfl, List.append_nil]; exact hholds)
      (fun l hl => absurd hl List.not_mem_nil) (.refl T w)
  | succ n ih =>
    intro w t sz off L Q hfile himg hholds hfail hok
    rw [loadProgram, Prog.lift_bind, Prog.wp_op, vmWp_readi, hfile]
    have hheads : headers file (n + 1) off = readBytes file off (ofNat 32 phSize) ::
        headers file n (off + ofNat 32 phSize) := rfl
    generalize readBytes file off (ofNat 32 phSize) = l at hheads ⊢
    generalize hph : Proghdr.ofBytes l = ph
    have hloads : loads file (n + 1) off = (if ph.type = ELF_PROG_LOAD then [ph] else []) ++
        loads file n (off + ofNat 32 phSize) := by
      rw [loads, hheads, List.map_cons, hph, List.filter_cons, loads]
      simp only [decide_eq_true_eq]
      split_ifs <;> rfl
    have hheads : ∀ (h : l.length = phSize),
        (∀ a ∈ headers file n (off + ofNat 32 phSize), a.length = phSize) →
        ∀ a ∈ headers file (n + 1) off, a.length = phSize := fun h hrest a ha => by
      rw [hheads] at ha
      rcases List.mem_cons.mp ha with rfl | ha
      · exact h
      · exact hrest a ha
    by_cases hlen : l.length = phSize
    · rw [if_neg (not_not.mpr hlen)]
      by_cases htype : ph.type = ELF_PROG_LOAD
      · rw [if_neg (not_not.mpr htype)]
        rw [if_pos htype] at hloads
        by_cases hmem : ph.memsz < ph.filesz
        · rw [if_pos hmem]
          exact hfail t w sz himg (.refl T w)
        rw [if_neg hmem]
        by_cases hwrap : (ph.vaddr + ph.memsz) % 2 ^ 64 < ph.vaddr
        · rw [if_pos hwrap]
          exact hfail t w sz himg (.refl T w)
        have hend := end_eq (hph ▸ field_lt l 8 16) (hph ▸ field_lt l 8 40) hwrap
        rw [if_neg hwrap, Prog.wp_bind, hend]
        refine himg.wp_uvmalloc (fun t1 w1 himg1 hm1 => ?_) fun t1 w1 himg1 hm1 hkeep hzero => ?_
        · exact hfail t1 w1 sz himg1 hm1
        dsimp only
        have hle : sz ≤ max sz (ph.vaddr + ph.memsz) := Nat.le_max_left ..
        have hge : ph.vaddr + ph.memsz ≤ max sz (ph.vaddr + ph.memsz) := Nat.le_max_right ..
        have hholds1 := hholds.grow hle hkeep hzero
        generalize max sz (ph.vaddr + ph.memsz) = sz1 at *
        by_cases hsz1 : sz1 = 0
        · rw [if_pos hsz1]
          rw [hsz1] at himg1 hle
          rw [show sz = 0 by omega]
          exact hfail t1 w1 0 himg1 hm1
        rw [if_neg hsz1]
        by_cases hva : ph.vaddr % PGSIZE = 0
        · have hlt := himg1.acc.size_lt
          have hmapped : ph.vaddr / PGSIZE + pages ph.filesz ≤ pages sz1 := by
            rw [← pages_add hva]
            exact pages_mono (by omega)
          rw [if_neg (not_not.mpr hva), Prog.wp_bind, Nat.mod_eq_of_lt (by omega)]
          have hsub : ∀ q ∈ t1.frames (ph.vaddr / PGSIZE) (pages ph.filesz), q ∈ T := fun q hq => by
            obtain ⟨k, hk, rfl⟩ := mem_frames.mp hq
            exact himg1.mem (by omega)
          have hfile1 : w1.file = file := hm1.file.trans hfile
          refine wp_loadseg himg1 hva hmapped (fun w2 hst => ?_) fun w2 hst hin => ?_
          · exact hfail t1 w2 sz1 (himg1.stored hst) (hm1.trans (hst.moved hsub))
          · rw [hfile1] at hin
            have hm2 := hm1.trans (hst.moved hsub)
            refine ih (hm2.file.trans hfile) (himg1.stored hst)
              (hholds1.load himg1 hva (by omega) hge hst hin)
              (fun t' w' sz' himg' hm' => hfail t' w' sz' himg' (hm2.trans hm'))
              fun t' w' sz' himg' hholds' hh hm' => ?_
            refine hok t' w' sz' himg' ?_ (hheads hlen hh) (hm2.trans hm')
            rw [hloads, ← List.append_assoc]
            exact hholds'
        · rw [if_pos hva]
          exact hfail t1 w1 sz1 himg1 hm1
      · rw [if_pos htype]
        rw [if_neg htype, List.nil_append] at hloads
        refine ih hfile himg hholds hfail fun t' w' sz' himg' hholds' hh hm => ?_
        exact hok t' w' sz' himg' (by rw [hloads]; exact hholds') (hheads hlen hh) hm
    · rw [if_pos hlen]
      exact hfail t w sz himg (.refl T w)

end Xv6.Vm
