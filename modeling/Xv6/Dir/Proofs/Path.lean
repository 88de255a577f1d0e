import Xv6.Dir.Code

/-!
# Path names

`namex` cuts the path as it goes down. What it does is a walk over the list of the names.
-/

namespace Xv6.Dir

variable {path name : CString}

/-- The names between the slashes, cut to `DIRSIZ` bytes. -/
def elements (path : CString) : List CString :=
  ((path.splitOn slash).filter (· ≠ [])).map (·.take DIRSIZ)

theorem elements_dropWhile (path : CString) :
    elements (path.dropWhile (· = slash)) = elements path := by
  induction path with
  | nil => rfl
  | cons c path ih =>
    by_cases hc : c = slash
    · simpa [elements, hc, List.splitOn_cons_eq_if_modifyHead] using ih
    · simp [hc]

theorem splitOn_cases (path : CString) :
    ∃ ws, path.splitOn slash = path.takeWhile (· ≠ slash) :: ws ∧
      ((path.dropWhile (· ≠ slash)).splitOn slash).filter (· ≠ []) = ws.filter (· ≠ []) := by
  induction path with
  | nil => exact ⟨[], rfl, rfl⟩
  | cons c path ih =>
    by_cases hc : c = slash
    · simp [hc, List.splitOn_cons_eq_if_modifyHead]
    · obtain ⟨ws, hsplit, hfilter⟩ := ih
      exact ⟨ws, by simp [hc, List.splitOn_cons_eq_if_modifyHead, hsplit],
        by simpa [hc] using hfilter⟩

theorem elements_cons {c : BitVec 8} (hc : c ≠ slash) :
    elements (c :: path) = ((c :: path).takeWhile (· ≠ slash)).take DIRSIZ ::
      elements ((c :: path).dropWhile (· ≠ slash)) := by
  obtain ⟨ws, hsplit, hfilter⟩ := splitOn_cases (c :: path)
  rw [elements, elements, hfilter, hsplit]
  simp [hc]

/-- No slash is left at the head. -/
theorem dropWhile_cases (path : CString) :
    path.dropWhile (· = slash) = [] ∨
      ∃ c r, path.dropWhile (· = slash) = c :: r ∧ c ≠ slash := by
  have hhead := List.head?_dropWhile_not (· = slash) path
  cases hd : path.dropWhile (· = slash) with
  | nil => exact .inl rfl
  | cons c r => exact .inr ⟨c, r, rfl, by simpa [hd] using hhead⟩

theorem skipelem_elements (path : CString) : match skipelem path with
    | none => elements path = []
    | some (name, rest) => elements path = name :: elements rest ∧ rest.length < path.length ∧
      (rest = [] ↔ elements rest = []) := by
  have hlen := (List.dropWhile_sublist (l := path) (· = slash)).length_le
  rw [← elements_dropWhile path, skipelem]
  rcases dropWhile_cases path with hd | ⟨c, r, hd, hc⟩ <;> rw [hd] at hlen ⊢
  · rfl
  · refine ⟨by rw [elements_cons hc, elements_dropWhile], lt_of_lt_of_le ?_ hlen, ?_⟩
    · simpa [hc] using Nat.lt_succ_of_le
        ((List.dropWhile_sublist _).trans (List.dropWhile_sublist _)).length_le
    · rcases dropWhile_cases ((c :: r).dropWhile (· ≠ slash)) with hr | ⟨d, t, hr, hd⟩ <;> rw [hr]
      · exact ⟨fun _ => rfl, fun _ => rfl⟩
      · simp [elements_cons hd]

/-- The loop of `namex` over the names. -/
def walk (parent : Bool) :
    Fin NINODE → CString → List CString → IProg (Option (Fin NINODE × CString))
  | ip, name, [] => namexEnd parent ip name
  | ip, _, name :: names => do
    ilock ip
    let a ← .lift (.attr ip)
    if a.type ≠ T_DIR then
      iunlockput ip
      return none
    else if parent ∧ names = [] then
      .lift (.iunlock ip)
      return some (ip, name)
    else
      match ← dirlookup ip name with
      | none =>
        iunlockput ip
        return none
      | some (next, _) =>
        iunlockput ip
        walk parent next name names

theorem namexFrom_walks (parent : Bool) (fuel : Nat) (hlen : path.length ≤ fuel) (ip : Fin NINODE) :
    namexFrom parent fuel ip name path = walk parent ip name (elements path) := by
  induction fuel generalizing path name ip with
  | zero =>
    cases List.length_eq_zero_iff.mp (Nat.le_zero.mp hlen)
    rfl
  | succ fuel ih =>
    have hskip := skipelem_elements path
    unfold namexFrom
    cases hr : skipelem path <;> rw [hr] at hskip
    · rw [hskip, walk]
    · obtain ⟨hels, hlt, hnil⟩ := hskip
      rw [hels]
      simp only [hnil, ih (Nat.le_of_lt_succ (hlt.trans_le hlen))]
      rfl

theorem namex_walks (path : CString) (parent : Bool) :
    namex path parent = namexStart path >>= fun ip => walk parent ip [] (elements path) := by
  simp only [namex, namexFrom_walks parent _ le_rfl]

end Xv6.Dir
