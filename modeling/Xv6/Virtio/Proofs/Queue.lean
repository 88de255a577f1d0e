import Xv6.Virtio.Proofs.Chains

/-!
# The queue

A head is queued from the moment `avail[1]` counts it until `virtio_disk_intr` has seen it in the
used ring. The queued heads are heads of different requests that wait, and a request has three of the
`NUM` descriptors to itself: so at most two heads are queued and neither ring overflows.
-/

namespace Xv6

open Function
open BitVec (ofNat toNat)
open VPc (ready_of_waiting waiting req_of_ready)
open RingBuffer (contents slot contents_succ contents_pop)
open List (mem_cons length map_append append_assoc mem_append mem_singleton mem_append_left
  map_cons length_cons)

variable {Tid B : Type} {r : Req B} {x : Idx} {pc : Tid → VPc B} {t u : Tid} {calls : Nat}
  {head : BitVec 16} {i : Fin NUM} {p : VPc B}

/-! ## Formatted descriptors -/

/-- The descriptors of `x` and `disk.info` describe request `r`. -/
structure Vdisk.Formatted (d : Vdisk Tid B) (r : Req B) (x : Idx) : Prop extends d.Linked x where
  addr0 : (d.desc x.i0).addr = .buf0 r
  addr1 : (d.desc x.i1).addr = .data r.b
  addr2 : (d.desc x.i2).addr = .status x.i0
  info : d.info x.i0 = ⟨some r.b, 0⟩

namespace Vdisk

variable {d d' : Vdisk Tid B}

theorem Formatted.congr (h : d.Formatted r x) (hdesc : ∀ i ∈ x.toList, d'.desc i = d.desc i)
    (hinfo : d'.info x.i0 = d.info x.i0) : d'.Formatted r x := by
  have h0 := hdesc x.i0 (by simp [Idx.toList])
  have h1 := hdesc x.i1 (by simp [Idx.toList])
  have h2 := hdesc x.i2 (by simp [Idx.toList])
  obtain ⟨⟨hf0, hn0, hf1, hn1, hf2⟩, ha0, ha1, ha2, hi⟩ := h
  exact ⟨⟨h0 ▸ hf0, h0 ▸ hn0, h1 ▸ hf1, h1 ▸ hn1, h2 ▸ hf2⟩, h0 ▸ ha0, h1 ▸ ha1, h2 ▸ ha2,
    hinfo ▸ hi⟩

theorem formatted_format [DecidableEq B] (d : Vdisk Tid B) (r : Req B) (h : x.toList.Nodup) :
    (d.format r x).Formatted r x := by
  simp only [Idx.toList, List.nodup_cons, mem_cons, List.not_mem_nil, or_false, not_or] at h
  obtain ⟨⟨h01, h02⟩, h12, -⟩ := h
  have hsmall : ∀ i : Fin NUM, (ofNat 16 i.val).toNat = i.val := by decide
  have hflags : ((if r.write then 0 else VRING_DESC_F_WRITE) ||| VRING_DESC_F_NEXT) &&&
      VRING_DESC_F_NEXT ≠ 0 := by
    cases r.write <;> decide
  refine ⟨⟨?_, ?_, ?_, ?_, ?_⟩, ?_, ?_, ?_, ?_⟩ <;>
    simp only [format, update_self, update_of_ne h01, update_of_ne h02, update_of_ne h12, hsmall]
  · decide
  · exact hflags
  · decide

theorem format_desc_of_notMem [DecidableEq B] (d : Vdisk Tid B) (r : Req B)
    (h : i ∉ x.toList) : (d.format r x).desc i = d.desc i := by
  simp only [Idx.toList, mem_cons, List.not_mem_nil, or_false, not_or] at h
  simp [format, h]

/-- The chain that the device finds at `h`. -/
def chainAt (d : Vdisk Tid B) (h : Nat) : List (Fin NUM) :=
  let i0 := Fin.ofNat NUM h
  let i1 := Fin.ofNat NUM (d.desc i0).next.toNat
  [i0, i1, Fin.ofNat NUM (d.desc i1).next.toNat]

theorem Formatted.chainAt_eq (h : d.Formatted r x) : d.chainAt x.i0 = x.toList := by
  have hi : ∀ i : Fin NUM, Fin.ofNat NUM i.val = i := fun i => Fin.ofNat_val_eq_self i
  simp only [chainAt, hi, h.next0, h.next1, Idx.toList]

theorem nextDesc_eq {v : VRingDesc B} (hflags : v.flags &&& VRING_DESC_F_NEXT ≠ 0)
    (hnext : v.next.toNat = i) : d.nextDesc v = .ok (d.desc i) := by
  unfold nextDesc
  rw [if_pos hflags, dif_pos (hnext ▸ i.isLt)]
  exact congrArg (fun j => Except.ok (d.desc j)) (Fin.ext hnext)

theorem Formatted.readChain_eq (h : d.Formatted r x)
    (hhead : x.i0.val = head.toNat) : d.readChain head = .ok (r, x.i0) := by
  have hlt : head.toNat < NUM := hhead ▸ x.i0.isLt
  have h0 : (⟨head.toNat, hlt⟩ : Fin NUM) = x.i0 := Fin.ext hhead.symm
  unfold readChain
  rw [dif_pos hlt]
  simp only [h0, nextDesc_eq h.flags0 h.next0, nextDesc_eq h.flags1 h.next1, bind, Except.bind,
    h.addr0, h.addr1, h.addr2]

end Vdisk

/-- Requests past the formatting are formatted. -/
def Ready (pc : Tid → VPc B) (d : Vdisk Tid B) : Prop :=
  ∀ t r x, (pc t).ready = some (r, x) → d.Formatted r x

variable {pc' : Tid → VPc B}

theorem Ready.congr {d d' : Vdisk Tid B} (h : Ready pc d) (hr : ∀ u, (pc' u).ready = (pc u).ready)
    (hdesc : d'.desc = d.desc) (hinfo : d'.info = d.info) : Ready pc' d' :=
  fun u r x hu => (h u r x (hr u ▸ hu)).congr (fun i _ => congrFun hdesc i) (congrFun hinfo _)

/-! ## The queue -/

/-- What the driver and the device share, and the `disk` fields of the buffers. -/
structure Rings (B : Type) where
  availIdx : BitVec 16
  availRing : Fin NUM → BitVec 16
  usedId : BitVec 16
  usedElems : Fin NUM → BitVec 32
  usedIdx : BitVec 16
  busy : B → Bool
  lastAvail : BitVec 16
  taken : List (BitVec 16)
  serving : Option (BitVec 16 × Req B)

def Vdisk.rings (d : Vdisk Tid B) : Rings B where
  availIdx := d.availIdx
  availRing := d.availRing
  usedId := d.usedId
  usedElems := d.usedElems
  usedIdx := d.usedIdx
  busy := d.busy
  lastAvail := d.lastAvail
  taken := d.taken
  serving := d.serving

namespace Rings

/-- The elements of the used ring that `virtio_disk_intr` has not seen, after it has seen `n`. -/
def used (g : Rings B) (n : Nat) : List (BitVec 32) :=
  contents g.usedElems (BitVec.ofNat 16 n) g.usedId

/-- The published heads that the device has not taken. -/
def avail (g : Rings B) : List (BitVec 16) :=
  contents g.availRing g.lastAvail g.availIdx

/-- The published heads that the device has not finished. -/
def todo (g : Rings B) : List Nat :=
  g.serving.toList.map (·.1.toNat) ++ (g.taken.map BitVec.toNat ++ g.avail.map BitVec.toNat)

/-- The rings after the device has served `head`. -/
def serve (g : Rings B) (head : BitVec 16) (r : Req B) : Rings B :=
  { g with
    usedElems := update g.usedElems (slot NUM g.usedId) (head.setWidth 32)
    taken := g.taken.erase head
    serving := some (head, r) }

def heads (g : Rings B) (n : Nat) : List Nat := (g.used n).map BitVec.toNat ++ g.todo

end Rings

/-- No request but `r` waits with head `h`. -/
def WaitsAt (pc : Tid → VPc B) (h : Nat) (r : Req B) : Prop :=
  ∀ t r' x, (pc t).waiting = some (r', x) → x.i0.val = h → r' = r

/-- The invariant of the queue: `fin` are the requests that the device has finished, `con` the
buffers that `virtio_disk_intr` has passed on, and `ret` the requests that have returned. -/
structure Queue (pc : Tid → VPc B) (g : Rings B) (fin : List (Req B)) (con : List B)
    (ret : List (Req B)) : Prop where
  nodup : (g.heads con.length).Nodup
  queued : ∀ h ∈ g.heads con.length, ∃ t r x, (pc t).waiting = some (r, x) ∧ x.i0.val = h ∧
    g.busy r.b = true
  usedIdx : g.usedIdx.toNat = con.length % NUM
  con_eq : con = (fin.take con.length).map Req.b
  used_length : (g.used con.length).length = (fin.drop con.length).length
  used : ∀ e r, (e, r) ∈ (g.used con.length).zip (fin.drop con.length) → WaitsAt pc e.toNat r
  serving : ∀ h r, g.serving = some (h, r) →
    g.usedElems (slot NUM g.usedId) = h.setWidth 32 ∧ WaitsAt pc h.toNat r
  todo : ∀ h ∈ g.todo, ∀ t r x, (pc t).waiting = some (r, x) → x.i0.val = h → r ∉ fin
  early : ∀ t r, (pc t).early = some r → r ∉ fin
  armed : ∀ t r, (pc t).armed = some r → g.busy r.b = true
  told : ∀ t r x, (pc t).waiting = some (r, x) → g.busy r.b = false → r ∈ fin
  done : ∀ t r, (pc t).done = some r → r ∈ fin
  fin_nodup : fin.Nodup
  ret : ∀ r ∈ ret, r ∈ fin

/-- The head that is in `avail` and not yet counted. -/
def Written (pc : Tid → VPc B) (g : Rings B) : Prop :=
  ∀ t x, (pc t).notify = some x →
    g.availRing (slot NUM g.availIdx) = BitVec.ofNat 16 x.i0

theorem Written.congr {g : Rings B} (h : Written pc g)
    (hn : ∀ u, (pc' u).notify = (pc u).notify) : Written pc' g :=
  fun u x hu => h u x (hn u ▸ hu)

structure VInv (w : VWorld Tid B) : Prop where
  mutex : ∀ t, (w.st.pc t).Holds → w.st.disk.vdiskLock = some t
  calls : VCalls w.st.pc w.calls w.finished
  chains : Chains w.st.pc w.st.disk.free
  ready : Ready w.st.pc w.st.disk
  written : Written w.st.pc w.st.disk.rings
  queue : Queue w.st.pc w.st.disk.rings w.finished w.consumed w.returned

theorem Queue.length_heads {d : Vdisk Tid B} {fin ret : List (Req B)}
    {con : List B} (hq : Queue pc d.rings fin con ret) (hc : Chains pc d.free) (hr : Ready pc d) :
    3 * (d.rings.heads con.length).length ≤ NUM := by
  have hchain : ∀ h ∈ d.rings.heads con.length, ∃ t x, (pc t).idx = some x ∧ x.i0.val = h ∧
      d.chainAt h = x.toList := by
    intro h hh
    obtain ⟨t, r, x, hw, rfl, -⟩ := hq.queued h hh
    have hready := ready_of_waiting hw
    exact ⟨t, x, VPc.idx_of_ready hready, rfl, (hr t r x hready).chainAt_eq⟩
  have hnodup : ((d.rings.heads con.length).flatMap d.chainAt).Nodup := by
    refine List.nodup_flatMap.mpr ⟨fun h hh => ?_, ?_⟩
    · obtain ⟨t, x, hx, -, heq⟩ := hchain h hh
      exact heq ▸ hc.nodup hx
    · refine List.Pairwise.imp_of_mem (fun {h h'} hh hh' hne => ?_) hq.nodup
      obtain ⟨t, x, hx, rfl, heq⟩ := hchain h hh
      obtain ⟨u, y, hy, rfl, heq'⟩ := hchain h' hh'
      rw [onFun, heq, heq']
      intro i hi hi'
      obtain rfl := hc.disjoint hx hy hi hi'
      exact hne (by rw [Option.some.inj (hx.symm.trans hy)])
  have hlen := hnodup.length_le_card
  rw [List.length_flatMap, Fintype.card_fin] at hlen
  have hthree : (fun h => (d.chainAt h).length) = fun _ => 3 := by
    funext h
    rfl
  rw [hthree, List.map_const', List.sum_replicate, smul_eq_mul] at hlen
  omega

/-! ## Steps that change no request -/

theorem Queue.congr {g : Rings B} {fin ret : List (Req B)} {con : List B}
    (h : Queue pc g fin con ret) (hw : ∀ u, (pc' u).waiting = (pc u).waiting)
    (he : ∀ u, (pc' u).early = (pc u).early) (ha : ∀ u, (pc' u).armed = (pc u).armed)
    (hd : ∀ u, (pc' u).done = (pc u).done) : Queue pc' g fin con ret where
  nodup := h.nodup
  queued := by simpa only [hw] using h.queued
  usedIdx := h.usedIdx
  con_eq := h.con_eq
  used_length := h.used_length
  used := by simpa only [WaitsAt, hw] using h.used
  serving := by simpa only [WaitsAt, hw] using h.serving
  todo := by simpa only [hw] using h.todo
  early := by simpa only [he] using h.early
  armed := by simpa only [ha] using h.armed
  told := by simpa only [hw] using h.told
  done := by simpa only [hd] using h.done
  fin_nodup := h.fin_nodup
  ret := h.ret

variable [DecidableEq Tid]

variable {α : Type} {a : α} (f : VPc B → Option α)

/-- A step of `t` that what `f` says about its place does not show. -/
theorem view_update (f : VPc B → α)
    (h : f p = f (pc t)) (u : Tid) : f (update pc t p u) = f (pc u) := by
  by_cases hut : u = t
  · subst hut
    rw [update_self, h]
  · rw [update_of_ne hut]

theorem view_at (f : VPc B → α) {q : VPc B}
    (hpc : pc t = q) (p : VPc B) (h : f p = f q) (u : Tid) : f (update pc t p u) = f (pc u) :=
  view_update f (h.trans (by rw [hpc])) u

theorem view_cases
    (h : f (update pc t p u) = some a) : (u = t ∧ f p = some a) ∨ (u ≠ t ∧ f (pc u) = some a) := by
  by_cases hut : u = t
  · subst hut
    rw [update_self] at h
    exact .inl ⟨rfl, h⟩
  · rw [update_of_ne hut] at h
    exact .inr ⟨hut, h⟩

theorem view_old (h : f (update pc t p u) = some a) (hp : f p = none) : f (pc u) = some a := by
  rcases view_cases f h with ⟨-, hnew⟩ | ⟨-, hold⟩
  · rw [hp] at hnew
    cases hnew
  · exact hold

/-! ## Steps of the queue -/

namespace Queue

variable {g g' : Rings B} {fin ret : List (Req B)} {con : List B}

section
omit [DecidableEq Tid]

variable (h : Queue pc g fin con ret)
include h

theorem con_le : con.length ≤ fin.length := by
  have := congrArg length h.con_eq
  simp only [List.length_map, List.length_take] at this
  omega

theorem rings_congr (hused : g'.used con.length = g.used con.length)
    (htodo : g'.todo = g.todo) (hbusy : g'.busy = g.busy) (hidx : g'.usedIdx = g.usedIdx)
    (hserving : g'.serving = g.serving)
    (helem : g'.usedElems (slot NUM g'.usedId) =
      g.usedElems (slot NUM g.usedId)) : Queue pc g' fin con ret where
  nodup := by simpa only [Rings.heads, hused, htodo] using h.nodup
  queued := by simpa only [Rings.heads, hused, htodo, hbusy] using h.queued
  usedIdx := by simpa only [hidx] using h.usedIdx
  con_eq := h.con_eq
  used_length := by simpa only [hused] using h.used_length
  used := by simpa only [hused] using h.used
  serving := by simpa only [hserving, helem] using h.serving
  todo := by simpa only [htodo] using h.todo
  early := h.early
  armed := by simpa only [hbusy] using h.armed
  told := by simpa only [hbusy] using h.told
  done := h.done
  fin_nodup := h.fin_nodup
  ret := h.ret

end

theorem call (h : Queue pc g fin con ret) (hidle : pc t = .idle) (hr : r ∉ fin) :
    Queue (update pc t (.rwStart r)) g fin con ret := by
  have hw := view_at waiting hidle (.rwStart r) rfl
  have ha := view_at VPc.armed hidle (.rwStart r) rfl
  have hd := view_at VPc.done hidle (.rwStart r) rfl
  refine ⟨h.nodup, ?_, h.usedIdx, h.con_eq, h.used_length, ?_, ?_, ?_, fun u r' hu => ?_, ?_, ?_, ?_,
    h.fin_nodup, h.ret⟩
  · simpa only [hw] using h.queued
  · simpa only [WaitsAt, hw] using h.used
  · simpa only [WaitsAt, hw] using h.serving
  · simpa only [hw] using h.todo
  · rcases view_cases VPc.early hu with ⟨-, hr'⟩ | ⟨-, hold⟩
    · cases hr'
      exact hr
    · exact h.early u r' hold
  · simpa only [ha] using h.armed
  · simpa only [hw] using h.told
  · simpa only [hd] using h.done

theorem arm [DecidableEq B] (h : Queue pc g fin con ret) (hpc : pc t = .rwFormat r x) :
    Queue (update pc t (.rwPublish r x)) { g with busy := update g.busy r.b true } fin con ret := by
  have hw := view_at waiting hpc (.rwPublish r x) rfl
  have he := view_at VPc.early hpc (.rwPublish r x) rfl
  have hd := view_at VPc.done hpc (.rwPublish r x) rfl
  have hbusy : ∀ b, g.busy b = true → update g.busy r.b true b = true := by
    intro b hb
    rw [update_apply]
    split
    · rfl
    · exact hb
  refine ⟨h.nodup, fun k hk => ?_, h.usedIdx, h.con_eq, h.used_length,
    fun e r' her u r'' y hu => h.used e r' her u r'' y (hw u ▸ hu), ?_,
    fun k hk u r' y hu => h.todo k hk u r' y (hw u ▸ hu), ?_,
    fun u r' hu => ?_, fun u r' y hu hb => ?_, ?_, h.fin_nodup, h.ret⟩
  · obtain ⟨u, r', y, hu, hy, hb⟩ := h.queued k hk
    exact ⟨u, r', y, by rw [hw, hu], hy, hbusy _ hb⟩
  · simpa only [WaitsAt, hw] using h.serving
  · simpa only [he] using h.early
  · rcases view_cases VPc.armed hu with ⟨-, hr'⟩ | ⟨-, hold⟩
    · cases hr'
      exact update_self ..
    · exact hbusy _ (h.armed u r' hold)
  · rw [hw] at hu
    refine h.told u r' y hu ?_
    by_contra hne
    exact absurd (hb.symm.trans (hbusy r'.b (by simpa using hne))) (by simp)
  · simpa only [hd] using h.done

section

variable (h : Queue pc g fin con ret)
include h

theorem push (hpc : pc t = .rwNotify r x)
    (hwritten : g.availRing (slot NUM g.availIdx) = ofNat 16 x.i0)
    (hsole : ∀ u r' y, (pc u).waiting = some (r', y) → y.i0 ≠ x.i0)
    (hroom : (g.availIdx - g.lastAvail).toNat < NUM) :
    Queue (update pc t (.rwWait r x)) { g with availIdx := g.availIdx + 1 } fin con ret := by
  have hnew : x.i0.val ∉ g.heads con.length := by
    intro hmem
    obtain ⟨u, r', y, hu, hy, -⟩ := h.queued _ hmem
    exact hsole u r' y hu (Fin.ext hy)
  have hsmall : (ofNat 16 x.i0.val).toNat = x.i0.val :=
    Nat.mod_eq_of_lt (x.i0.isLt.trans (by decide))
  have htodo : Rings.todo { g with availIdx := g.availIdx + 1 } = g.todo ++ [x.i0.val] := by
    have havail : Rings.avail { g with availIdx := g.availIdx + 1 } =
        g.avail ++ [ofNat 16 x.i0] := by
      rw [← hwritten]
      exact contents_succ (by decide) hroom
    simp only [Rings.todo, havail, map_append, List.map_singleton, hsmall, append_assoc]
  have hheads : Rings.heads { g with availIdx := g.availIdx + 1 } con.length =
      g.heads con.length ++ [x.i0.val] := by
    rw [Rings.heads, htodo, ← append_assoc]
    rfl
  have hbusy : g.busy r.b = true := h.armed t r (by rw [hpc]; rfl)
  have hfresh : r ∉ fin := h.early t r (by rw [hpc]; rfl)
  have hcases : ∀ {u r' y}, (update pc t (.rwWait r x) u).waiting = some (r', y) →
      (r' = r ∧ y = x) ∨ (pc u).waiting = some (r', y) := by
    intro u r' y hu
    rcases view_cases waiting hu with ⟨-, hr'⟩ | ⟨-, hold⟩
    · cases hr'
      exact .inl ⟨rfl, rfl⟩
    · exact .inr hold
  -- the new head is not queued yet, so what is said about queued heads stays
  have hwaits : ∀ k ∈ g.heads con.length, ∀ r', WaitsAt pc k r' →
      WaitsAt (update pc t (.rwWait r x)) k r' := by
    intro k hk r' hwait u r'' y hu hy
    rcases hcases hu with ⟨rfl, rfl⟩ | hold
    · exact absurd (hy ▸ hk) hnew
    · exact hwait u r'' y hold hy
  refine ⟨?_, fun k hk => ?_, h.usedIdx, h.con_eq, h.used_length, fun e r' he => ?_,
    fun k r' hk => ?_, fun k hk u r' y hu hy => ?_, fun u r' hu => ?_, fun u r' hu => ?_,
    fun u r' y hu hb => ?_, fun u r' hu => ?_, h.fin_nodup, h.ret⟩
  · rw [hheads]
    exact List.nodup_append.mpr ⟨h.nodup, List.nodup_singleton _, fun k hk k' hk' heq => hnew (by
      rw [List.mem_singleton.mp hk'] at heq
      rwa [heq] at hk)⟩
  · rw [hheads, mem_append, mem_singleton] at hk
    rcases hk with hk | rfl
    · obtain ⟨u, r', y, hu, hy, hb⟩ := h.queued k hk
      have hut : u ≠ t := by
        rintro rfl
        simp [hpc, waiting] at hu
      exact ⟨u, r', y, by rw [update_of_ne hut, hu], hy, hb⟩
    · exact ⟨t, r, x, by rw [update_self]; rfl, rfl, hbusy⟩
  · refine hwaits _ ?_ r' (h.used e r' he)
    exact mem_append_left _ (List.mem_map_of_mem (List.of_mem_zip he).1)
  · obtain ⟨helem, hwait⟩ := h.serving k r' hk
    refine ⟨helem, hwaits _ ?_ r' hwait⟩
    have hk' : g.serving = some (k, r') := hk
    simp [Rings.heads, Rings.todo, hk']
  · rw [htodo, mem_append, mem_singleton] at hk
    rcases hcases hu with ⟨rfl, rfl⟩ | hold
    · exact hfresh
    · rcases hk with hk | rfl
      · exact h.todo k hk u r' y hold hy
      · exact absurd (Fin.ext hy) (hsole u r' y hold)
  · exact h.early u r' (view_old VPc.early hu rfl)
  · exact h.armed u r' (view_old VPc.armed hu rfl)
  · rcases hcases hu with ⟨rfl, rfl⟩ | hold
    · exact absurd (hbusy.symm.trans hb) (by simp)
    · exact h.told u r' y hold hb
  · exact h.done u r' (view_old VPc.done hu rfl)

theorem finish (hpc : pc t = .rwWait r x) (hb : g.busy r.b = false) :
    Queue (update pc t (.rwFree r x)) g fin con ret := by
  have hold : ∀ {u r' y}, (update pc t (.rwFree r x) u).waiting = some (r', y) →
      (pc u).waiting = some (r', y) := by
    intro u r' y hu
    exact view_old waiting hu rfl
  refine ⟨h.nodup, fun k hk => ?_, h.usedIdx, h.con_eq, h.used_length,
    fun e r' her u r'' y hu => h.used e r' her u r'' y (hold hu),
    fun k r' hk => ⟨(h.serving k r' hk).1, fun u r'' y hu => (h.serving k r' hk).2 u r'' y (hold hu)⟩,
    fun k hk u r' y hu => h.todo k hk u r' y (hold hu), fun u r' hu => ?_, fun u r' hu => ?_,
    fun u r' y hu => h.told u r' y (hold hu), fun u r' hu => ?_, h.fin_nodup, h.ret⟩
  · obtain ⟨u, r', y, hu, hy, hbusy⟩ := h.queued k hk
    have hut : u ≠ t := by
      rintro rfl
      rw [hpc] at hu
      cases hu
      simp [hb] at hbusy
    exact ⟨u, r', y, by rw [update_of_ne hut, hu], hy, hbusy⟩
  · exact h.early u r' (view_old VPc.early hu rfl)
  · exact h.armed u r' (view_old VPc.armed hu rfl)
  · rcases view_cases VPc.done hu with ⟨-, hr'⟩ | ⟨-, hold⟩
    · cases hr'
      exact h.told t r x (by rw [hpc]; rfl) hb
    · exact h.done u r' hold

theorem returned (hpc : pc t = .rwFree r x) : Queue (update pc t .idle) g fin con (ret ++ [r]) := by
  have hw := view_at waiting hpc .idle rfl
  have he := view_at VPc.early hpc .idle rfl
  have ha := view_at VPc.armed hpc .idle rfl
  refine ⟨h.nodup, ?_, h.usedIdx, h.con_eq, h.used_length, ?_, ?_, ?_, ?_, ?_, ?_, fun u r' hu => ?_,
    h.fin_nodup, fun r' hr' => ?_⟩
  · simpa only [hw] using h.queued
  · simpa only [WaitsAt, hw] using h.used
  · simpa only [WaitsAt, hw] using h.serving
  · simpa only [hw] using h.todo
  · simpa only [he] using h.early
  · simpa only [ha] using h.armed
  · simpa only [hw] using h.told
  · exact h.done u r' (view_old VPc.done hu rfl)
  · rcases List.mem_append.mp hr' with hold | hnew
    · exact h.ret r' hold
    · rw [List.mem_singleton.mp hnew]
      exact h.done t r (by rw [hpc]; rfl)

omit [DecidableEq Tid] in
theorem next_used (hne : ofNat 16 con.length ≠ g.usedId) : ∃ u r x es rs, g.used con.length =
        g.usedElems (slot NUM (ofNat 16 con.length)) :: es ∧
      g.used (con.length + 1) = es ∧ fin.drop con.length = r :: rs ∧
      (pc u).waiting = some (r, x) ∧
      x.i0.val = (g.usedElems (slot NUM (ofNat 16 con.length))).toNat ∧
      g.busy r.b = true := by
  have hpop : g.used con.length = g.usedElems (slot NUM (ofNat 16 con.length)) ::
      g.used (con.length + 1) := by
    refine (contents_pop hne).trans ?_
    rw [← BitVec.ofNat_add]
    rfl
  cases hdrop : fin.drop con.length with
  | nil =>
    have hlen := h.used_length
    rw [hpop, hdrop] at hlen
    simp at hlen
  | cons r rs =>
    obtain ⟨u, r', x, hu, hx, hb⟩ := h.queued
      (g.usedElems (slot NUM (ofNat 16 con.length))).toNat
      (by rw [Rings.heads, hpop]; simp)
    obtain rfl : r' = r := by
      refine h.used _ r ?_ u r' x hu hx
      rw [hpop, hdrop]
      exact List.mem_cons_self
    exact ⟨u, r', x, _, rs, hpop, rfl, rfl, hu, hx, hb⟩

end

omit [DecidableEq Tid]

variable (h : Queue pc g fin con ret)
include h

theorem consume [DecidableEq B] (hcalls : VCalls pc calls fin) {e : BitVec 32}
    {es : List (BitVec 32)} {rs : List (Req B)} (hused : g.used con.length = e :: es)
    (hused' : g.used (con.length + 1) = es) (hdrop : fin.drop con.length = r :: rs)
    (hu : (pc u).waiting = some (r, x)) (hx : x.i0.val = e.toNat) :
    Queue pc { g with
        busy := update g.busy r.b false
        usedIdx := (g.usedIdx + 1) % ofNat 16 NUM } fin (con ++ [r.b]) ret := by
  have hreq := req_of_ready (ready_of_waiting hu)
  have hheads : g.heads con.length = e.toNat :: g.heads (con.length + 1) := by
    simp only [Rings.heads, hused, hused', map_cons, List.cons_append]
  have hnodup : e.toNat ∉ g.heads (con.length + 1) ∧ (g.heads (con.length + 1)).Nodup := by
    rw [← List.nodup_cons, ← hheads]
    exact h.nodup
  have hlen : (con ++ [r.b]).length = con.length + 1 := by simp
  have hlt : con.length < fin.length := by
    have := congrArg length hdrop
    simp only [List.length_drop, length_cons] at this
    omega
  have hget : fin[con.length] = r := by
    have := congrArg (·[0]?) hdrop
    simpa [List.getElem?_drop, hlt] using this
  have hdrop' : fin.drop (con.length + 1) = rs := by rw [← List.tail_drop, hdrop, List.tail_cons]
  have hmem : r ∈ fin := hget ▸ List.getElem_mem hlt
  refine ⟨?_, fun k hk => ?_, ?_, ?_, ?_, fun e' r' her => ?_, h.serving, h.todo, h.early,
    fun v r' hv => ?_, fun v r' y hv hb => ?_, h.done, h.fin_nodup, h.ret⟩
  · rw [hlen]
    exact hnodup.2
  · rw [hlen] at hk
    obtain ⟨v, r', y, hv, hy, hb⟩ := h.queued k (by rw [hheads]; exact List.mem_cons_of_mem _ hk)
    have hother : r'.b ≠ r.b := by
      intro heq
      obtain rfl := hcalls.buf (req_of_ready (ready_of_waiting hv)) hreq heq
      rw [hu] at hv
      cases hv
      exact hnodup.1 (by rw [← hx, hy]; exact hk)
    exact ⟨v, r', y, hv, hy, (update_of_ne hother ..).trans hb⟩
  · have hone : (1 : BitVec 16).toNat = 1 := rfl
    have hnum : (ofNat 16 NUM).toNat = 8 := rfl
    rw [hlen, BitVec.toNat_umod, BitVec.toNat_add, h.usedIdx, hone, hnum]
    simp only [NUM]
    omega
  · rw [hlen, List.take_succ_eq_append_getElem hlt, map_append, ← h.con_eq, hget]
    rfl
  · have hlen' := h.used_length
    rw [hused, hdrop, length_cons, length_cons] at hlen'
    rw [hlen, hdrop']
    show (g.used (con.length + 1)).length = rs.length
    rw [hused']
    omega
  · refine h.used e' r' ?_
    rw [hlen, hdrop'] at her
    have her' : (e', r') ∈ (g.used (con.length + 1)).zip rs := her
    rw [hused'] at her'
    rw [hused, hdrop]
    exact List.mem_cons_of_mem _ her'
  · have hother : r'.b ≠ r.b := by
      intro heq
      obtain rfl := hcalls.buf (VPc.req_of_armed hv) hreq heq
      rw [VPc.armed_of_waiting hu] at hv
      cases hv
    show update g.busy r.b false r'.b = true
    rw [update_of_ne hother]
    exact h.armed v r' hv
  · by_cases heq : r'.b = r.b
    · obtain rfl := hcalls.buf (req_of_ready (ready_of_waiting hv)) hreq heq
      rw [hu] at hv
      cases hv
      exact hmem
    · refine h.told v r' y hv ?_
      rwa [← update_of_ne heq false g.busy]

theorem take (hne : g.lastAvail ≠ g.availIdx) :
    Queue pc { g with
        taken := g.taken ++ [g.availRing (slot NUM g.lastAvail)]
        lastAvail := g.lastAvail + 1 } fin con ret := by
  refine h.rings_congr rfl ?_ rfl rfl rfl rfl
  have hpop : g.avail = g.availRing (slot NUM g.lastAvail) ::
      Rings.avail { g with lastAvail := g.lastAvail + 1 } := contents_pop hne
  unfold Rings.todo
  rw [hpop, map_append, map_cons, append_assoc]
  rfl

theorem serve (hmem : head ∈ g.taken) (hnone : g.serving = none)
    (hwait : WaitsAt pc head.toNat r) (hroom : (g.usedId - ofNat 16 con.length).toNat < NUM) :
    Queue pc (g.serve head r) fin con ret := by
  have hused : (g.serve head r).used con.length = g.used con.length :=
    RingBuffer.contents_update hroom (by decide) _
  have htodo : (g.serve head r).todo.Perm g.todo := by
    have hperm := ((List.perm_cons_erase hmem).symm.map toNat).append_right (g.avail.map toNat)
    unfold Rings.todo
    rw [hnone]
    exact hperm
  refine ⟨?_, fun k hk => ?_, h.usedIdx, h.con_eq, ?_, ?_, fun k r' hk => ?_, fun k hk => ?_,
    h.early, h.armed, h.told, h.done, h.fin_nodup, h.ret⟩
  · rw [Rings.heads, hused]
    exact (htodo.append_left _).nodup_iff.mpr h.nodup
  · rw [Rings.heads, hused] at hk
    exact h.queued k ((htodo.append_left _).mem_iff.mp hk)
  · rw [hused]
    exact h.used_length
  · rw [hused]
    exact h.used
  · cases hk
    exact ⟨update_self .., hwait⟩
  · exact h.todo k (htodo.mem_iff.mp hk)

theorem count (hcalls : VCalls pc calls fin) (hserving : g.serving = some (head, r))
    (hroom : (g.usedId - ofNat 16 con.length).toNat < NUM) :
    r.tag < calls ∧
    Queue pc { g with usedId := g.usedId + 1, serving := none } (fin ++ [r]) con ret := by
  obtain ⟨helem, hwait⟩ := h.serving head r hserving
  have hwide : (head.setWidth 32).toNat = head.toNat := by
    rw [BitVec.toNat_setWidth, Nat.mod_eq_of_lt]
    exact head.isLt.trans (by decide)
  have hused : Rings.used { g with usedId := g.usedId + 1, serving := none } con.length =
      g.used con.length ++ [head.setWidth 32] := by
    rw [← helem]
    exact contents_succ (by decide) hroom
  have htodo : g.todo =
      head.toNat :: Rings.todo { g with usedId := g.usedId + 1, serving := none } := by
    simp only [Rings.todo, hserving]
    rfl
  have hheads : Rings.heads { g with usedId := g.usedId + 1, serving := none } con.length =
      g.heads con.length := by
    simp only [Rings.heads, hused, htodo, map_append, List.map_singleton, hwide,
      append_assoc, List.singleton_append]
  have hdrop : (fin ++ [r]).drop con.length = fin.drop con.length ++ [r] :=
    List.drop_append_of_le_length h.con_le
  have hhead : head.toNat ∈ g.todo := htodo ▸ List.mem_cons_self
  -- the request that waits with this head
  obtain ⟨u, r', x, hu, hx, -⟩ := h.queued _ (List.mem_append_right _ hhead)
  obtain rfl := hwait u r' x hu hx
  have hfresh : r' ∉ fin := h.todo _ hhead u r' x hu hx
  have hreq := req_of_ready (ready_of_waiting hu)
  refine ⟨hcalls.lt hreq, ?_, ?_, h.usedIdx, ?_, ?_, fun e r'' her => ?_, nofun,
    fun k hk v r'' y hv hy hmem => ?_, fun v r'' hv hmem => ?_, h.armed,
    fun v r'' y hv hb => mem_append_left _ (h.told v r'' y hv hb),
    fun v r'' hv => mem_append_left _ (h.done v r'' hv), ?_,
    fun r'' hr => mem_append_left _ (h.ret r'' hr)⟩
  · rw [hheads]
    exact h.nodup
  · rw [hheads]
    exact h.queued
  · rw [List.take_append_of_le_length h.con_le]
    exact h.con_eq
  · rw [hused, hdrop, List.length_append, List.length_append, h.used_length]
    rfl
  · rw [hused, hdrop, List.zip_append h.used_length, mem_append] at her
    rcases her with her | her
    · exact h.used e r'' her
    · simp only [List.zip_cons_cons, List.zip_nil_right, mem_singleton, Prod.mk.injEq] at her
      obtain ⟨rfl, rfl⟩ := her
      rwa [hwide]
  · rcases List.mem_append.mp hmem with hold | hnew
    · refine h.todo k ?_ v r'' y hv hy hold
      rw [htodo]
      exact List.mem_cons_of_mem _ hk
    rw [mem_singleton] at hnew
    subst hnew
    obtain rfl := hcalls.inj (req_of_ready (ready_of_waiting hv)) hreq rfl
    rw [hu] at hv
    cases hv
    have hnodup := (List.nodup_append.mp h.nodup).2.1
    rw [htodo, ← hx, hy] at hnodup
    exact (List.nodup_cons.mp hnodup).1 hk
  · rcases List.mem_append.mp hmem with hold | hnew
    · exact h.early v r'' hv hold
    · rw [mem_singleton] at hnew
      subst hnew
      obtain rfl := hcalls.inj (VPc.req_of_early hv) hreq rfl
      rw [VPc.early_of_waiting hu] at hv
      cases hv
  · exact List.nodup_append.mpr ⟨h.fin_nodup, List.nodup_singleton _, fun a ha b hb heq =>
      hfresh (by rw [List.mem_singleton.mp hb] at heq; exact heq ▸ ha)⟩

end Queue

end Xv6
