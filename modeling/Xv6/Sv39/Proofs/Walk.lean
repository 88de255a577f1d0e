import Xv6.Sv39.Proofs.Tree

/-!
# `walk`

`walk` adds tables to the tree on its way down. The new tables are empty, so the map stays the same.
-/

namespace Xv6.Sv39

open Option (bind_some map_some)

variable {m m' : PhysMem} {root p q i a va : BitVec 64} {ρ π : List (BitVec 64)}

/-- The pages on the list are apart from the tables. -/
structure Fresh (m : PhysMem) (root : BitVec 64) : Prop where
  nodup : m.freelist.Nodup
  page : ∀ p ∈ m.freelist, Aligned p ∧ NotTable m root p

/-! ## A new table -/

/-- Entry `i` of the table at `q` was made to point to the cleared page `p`. -/
structure Grown (m m' : PhysMem) (q i p : BitVec 64) : Prop where
  zero : ∀ k, k.toNat < 512 → m'.word (slot p k) = 0
  link : m'.word (slot q i) = PA2PTE p ||| PTE_V
  keep : ∀ q' k, Aligned q' → k.toNat < 512 → q' ≠ p → slot q' k ≠ slot q i →
    m'.word (slot q' k) = m.word (slot q' k)

namespace Tree

section

variable (ht : Tree m root) (hπ : IsPath (π ++ [i])) (hq : table m root π = some q)
  (hnone : child m q i = none) (hp : Aligned p) (hnot : NotTable m root p) (hg : Grown m m' q i p)

include ht hπ hq hnone hp hnot hg

theorem grow_table (hρ : IsPath ρ) :
    table m' root ρ = if ρ = π ++ [i] then some p else table m root ρ := by
  have hnew : table m root (π ++ [i]) = none := by rw [table_snoc, hq, bind_some, hnone]
  -- along the path from the root
  induction ρ using List.reverseRecOn with
  | nil => rw [if_neg (by simp)]; rfl
  | append_singleton σ j ih =>
    obtain ⟨hσ, -, hj⟩ := hρ.of_snoc
    rw [table_snoc, table_snoc, ih hσ]
    by_cases hend : σ = π ++ [i]
    · -- below the new table
      have hne : σ ++ [j] ≠ π ++ [i] := fun h => by
        have := congrArg List.length h
        rw [hend] at this
        simp at this
      have hzero : child m' p j = none := by rw [child, hg.zero j hj]; rfl
      rw [if_pos hend, if_neg hne, bind_some, hzero, hend, hnew]
      rfl
    rw [if_neg hend]
    cases hq' : table m root σ with
    | none =>
      have hne : σ ++ [j] ≠ π ++ [i] := fun h => by
        rw [(List.append_inj' h rfl).1, hq] at hq'
        cases hq'
      rw [if_neg hne]
      rfl
    | some q' =>
      rw [bind_some, bind_some]
      by_cases hsame : σ ++ [j] = π ++ [i]
      · obtain ⟨rfl, hji⟩ := List.append_inj' hsame rfl
        cases hji
        cases hq.symm.trans hq'
        rw [if_pos rfl, child, hg.link, if_pos (or_valid _), PTE2PA_PA2PTE hp (by decide)]
      · rw [if_neg hsame, child, child, hg.keep q' j (ht.aligned hq') hj
          (fun h => hnot σ hσ (h ▸ hq')) fun h => ?_]
        obtain ⟨rfl, rfl⟩ := slot_inj (ht.aligned hq') (ht.aligned hq) hj hπ.of_snoc.2.2 h
        rw [ht.inj hσ hπ.of_snoc.1 hq' hq] at hsame
        exact hsame rfl

theorem grow : Tree m' root := by
  refine ⟨ht.base, fun {ρ σ x} hρ hσ hx hx' => ?_⟩
  rw [ht.grow_table hπ hq hnone hp hnot hg hρ] at hx
  rw [ht.grow_table hπ hq hnone hp hnot hg hσ] at hx'
  split_ifs at hx hx' with h h'
  · rw [h, h']
  · cases hx
    exact absurd hx' (hnot σ hσ)
  · cases hx'
    exact absurd hx (hnot ρ hρ)
  · exact ht.inj hρ hσ hx hx'

theorem grow_notTable {p' : BitVec 64} (hnot' : NotTable m root p') (hne : p' ≠ p) :
    NotTable m' root p' := fun ρ hρ h => by
  rw [ht.grow_table hπ hq hnone hp hnot hg hρ] at h
  split_ifs at h
  · exact hne (Option.some.inj h).symm
  · exact hnot' ρ hρ h

theorem grow_mapping (u : BitVec 64) : mapping m' root u = mapping m root u := by
  have hu := PX_lt 0 u
  rw [mapping, mapping, entry, entry, ht.grow_table hπ hq hnone hp hnot hg (path_isPath u)]
  by_cases hend : path u = π ++ [i]
  · have hnew : table m root (π ++ [i]) = none := by rw [table_snoc, hq, bind_some, hnone]
    rw [if_pos hend, hend, hnew, map_some, bind_some, hg.zero _ hu]
    rfl
  rw [if_neg hend]
  cases hq' : table m root (path u) with
  | none => rfl
  | some q' =>
    have hkeep : m'.word (slot q' (PX 0 u)) = m.word (slot q' (PX 0 u)) := by
      refine hg.keep q' _ (ht.aligned hq') hu (fun h => hnot _ (path_isPath u) (h ▸ hq')) fun h => ?_
      -- the entry that was set is not on the lowest level
      obtain ⟨rfl, -⟩ := slot_inj (ht.aligned hq') (ht.aligned hq) hu hπ.of_snoc.2.2 h
      have hlen := hπ.of_snoc.2.1
      rw [← ht.inj (path_isPath u) hπ.of_snoc.1 hq' hq] at hlen
      exact absurd hlen (Nat.lt_irrefl 2)
    rw [map_some, bind_some, bind_some, hkeep]

end

end Tree

theorem grown_kalloc (hq : Aligned q) (hp : Aligned p) (hi : i.toNat < 512) (hne : q ≠ p)
    (c : BitVec 64) (ps : List (BitVec 64)) :
    Grown m (store (memset (memset { m with freelist := ps } p c) p 0) (slot q i) (PA2PTE p ||| PTE_V))
      q i p := by
  refine ⟨fun k hk => ?_, store_word_self .., fun q' k hq' hk hne' hslot => ?_⟩
  · have hslot : slot p k ≠ slot q i := fun h => hne (slot_inj hp hq hk hi h).1.symm
    rw [store_word_ne hslot]
    exact if_pos ((slot_sub_lt hp hp hk).mpr rfl)
  · have hout : ¬ slot q' k - p < PGSIZE := fun h => hne' ((slot_sub_lt hp hq' hk).mp h)
    rw [store_word_ne hslot]
    exact (if_neg hout).trans (if_neg hout)

/-! ## The loop -/

def below (va : BitVec 64) : Nat → List (BitVec 64)
  | 0 => []
  | level + 1 => PX (level + 1) va :: below va level

/-- What `walk` does: it may add tables, and the answer is the entry. -/
structure Walked (m m' : PhysMem) (root va : BitVec 64) (level : Nat) (alloc : Bool)
    (pte : Option (BitVec 64)) : Prop where
  tree : Tree m' root
  fresh : Fresh m' root
  same : ∀ u, mapping m' root u = mapping m root u
  entry : ∀ a, pte = some a → Sv39.entry m' root va = some a
  found : alloc = true → level ≤ m.freelist.length → pte ≠ none

theorem walkLoop_spec (va : BitVec 64) (alloc : Bool) (level : Nat) (ht : Tree m root)
    (hf : Fresh m root) (hπ : IsPath π) (hlen : π.length + level = 2) (hq : table m root π = some q)
    (hpath : π ++ below va level = path va) :
    Walked m (walkLoop va alloc level m q).2 root va level alloc (walkLoop va alloc level m q).1 := by
  -- down the levels, the path so far leads to the current table
  induction level generalizing m q π with
  | zero =>
    rw [walkLoop]
    refine ⟨ht, hf, fun _ => rfl, fun a ha => ?_, (fun _ _ h => by cases h)⟩
    rw [Sv39.entry, ← hpath, below, List.append_nil, hq, map_some]
    exact ha
  | succ level ih =>
    have hi := PX_lt (level + 1) va
    have hπ' := hπ.snoc (by omega) hi
    have hlen' : (π ++ [PX (level + 1) va]).length + level = 2 := by
      rw [List.length_append, List.length_singleton]
      omega
    have hpath' : (π ++ [PX (level + 1) va]) ++ below va level = path va := by
      rw [← hpath, List.append_assoc]
      rfl
    rw [walkLoop]
    by_cases hv : m.word (slot q (PX (level + 1) va)) &&& PTE_V ≠ 0
    · rw [if_pos hv]
      have hq' : table m root (π ++ [PX (level + 1) va]) =
          some (PTE2PA (m.word (slot q (PX (level + 1) va)))) := by
        rw [table_snoc, hq, bind_some, child, if_pos hv]
      have hw := ih ht hf hπ' hlen' hq' hpath'
      exact ⟨hw.tree, hw.fresh, hw.same, hw.entry, fun ha hle => hw.found ha (by omega)⟩
    rw [if_neg hv]
    cases alloc with
    | false =>
      rw [if_pos rfl]
      exact ⟨ht, hf, fun _ => rfl, (fun a ha => by cases ha), (fun h => by cases h)⟩
    | true =>
      rw [if_neg (by decide), kalloc]
      cases hfree : m.freelist with
      | nil =>
        refine ⟨ht, hf, fun _ => rfl, (fun a ha => by cases ha), fun _ hle => ?_⟩
        rw [hfree] at hle
        exact absurd hle (Nat.not_succ_le_zero _)
      | cons p ps =>
        -- a new table
        have hmem : p ∈ m.freelist := hfree ▸ List.mem_cons_self ..
        obtain ⟨hp, hnot⟩ := hf.page p hmem
        have hne : q ≠ p := fun h => hnot π hπ (h ▸ hq)
        have hnone : child m q (PX (level + 1) va) = none := if_neg hv
        have hg := grown_kalloc (m := m) (ht.aligned hq) hp hi hne 0x0505050505050505 ps
        have hnd := hf.nodup
        rw [hfree, List.nodup_cons] at hnd
        have hq' := ht.grow_table hπ' hq hnone hp hnot hg hπ'
        rw [if_pos rfl] at hq'
        have hw := ih (ht.grow hπ' hq hnone hp hnot hg)
          ⟨hnd.2, fun p' hp' => ⟨(hf.page p' (hfree ▸ List.mem_cons_of_mem p hp')).1,
            ht.grow_notTable hπ' hq hnone hp hnot hg
              (hf.page p' (hfree ▸ List.mem_cons_of_mem p hp')).2 fun h => hnd.1 (h ▸ hp')⟩⟩
          hπ' hlen' hq' hpath'
        refine ⟨hw.tree, hw.fresh, fun u => (hw.same u).trans
          (ht.grow_mapping hπ' hq hnone hp hnot hg u), hw.entry, fun ha hle => hw.found ha ?_⟩
        rw [hfree, List.length_cons] at hle
        exact Nat.le_of_succ_le_succ hle

theorem walk_spec (ht : Tree m root) (hf : Fresh m root) (hva : va < MAXVA) (alloc : Bool) :
    ∃ pte m', walk m root va alloc = .ok (pte, m') ∧ Walked m m' root va 2 alloc pte := by
  have hnil : IsPath [] := ⟨Nat.zero_le 2, by simp⟩
  have hw := walkLoop_spec va alloc 2 ht hf hnil rfl rfl rfl
  exact ⟨_, _, by rw [walk, if_neg (BitVec.not_le.mpr hva)], hw⟩

theorem walkLoop_false (va : BitVec 64) (level : Nat) (m : PhysMem) (q : BitVec 64) :
    walkLoop va false level m q = ((table m q (below va level)).map (slot · (PX 0 va)), m) := by
  induction level generalizing q with
  | zero => rfl
  | succ level ih =>
    rw [walkLoop, below, table, List.foldlM_cons, child]
    by_cases hv : m.word (slot q (PX (level + 1) va)) &&& PTE_V ≠ 0
    · rw [if_pos hv, if_pos hv]
      exact ih _
    · rw [if_neg hv, if_neg hv]
      rfl

theorem walk_false (m : PhysMem) (root : BitVec 64) (hva : va < MAXVA) :
    walk m root va false = .ok (entry m root va, m) :=
  (if_neg (BitVec.not_le.mpr hva)).trans (congrArg Except.ok (walkLoop_false va 2 m root))

end Xv6.Sv39
