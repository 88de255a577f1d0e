import Xv6.Virtio.Proofs.Queue

/-!
# The protocol of the driver and the device

Every step of a thread and of the device keeps the invariant, and none faults.
-/

namespace Xv6

open Function
open BitVec (ofNat toNat_ofNat)
open VPc (req notify idx idx_of_ready)

variable {Tid B : Type} [DecidableEq Tid] {w : VWorld Tid B}

/-- What follows is no fault, and keeps the invariant. -/
def Safe (w : VWorld Tid B) : VState.Next Tid B → Prop
  | none => True
  | some (.error _) => False
  | some (.ok (e, s')) => VInv (w.note s' e)

namespace VInv

variable {t : Tid} {p : VPc B} {d : Vdisk Tid B}

omit [DecidableEq Tid] in
theorem locked (h : VInv w) (hpc : w.st.pc t = p) (hp : p.Holds) : w.st.disk.vdiskLock = some t :=
  h.mutex t (by rwa [hpc])

section
variable (h : VInv w) (ht : w.st.disk.vdiskLock = none ∨ w.st.disk.vdiskLock = some t)
  (hp : p.Same (w.st.pc t)) (hidx : p.idx = (w.st.pc t).idx) (hrdy : p.ready = (w.st.pc t).ready)
include h ht hp hidx hrdy

omit hp hidx hrdy in
theorem mutex_goto (hl : p.Holds → d.vdiskLock = some t) (u : Tid)
    (hu : (update w.st.pc t p u).Holds) : d.vdiskLock = some u := by
  by_cases hut : u = t
  · subst hut
    rw [update_self] at hu
    exact hl hu
  · rw [update_of_ne hut] at hu
    rcases ht with hl' | hl'
    · simp [h.mutex u hu] at hl'
    · exact absurd (by simpa [h.mutex u hu] using hl') hut

omit ht hidx hrdy in
theorem same (hmutex : ∀ u, (update w.st.pc t p u).Holds → d.vdiskLock = some u)
    (hchains : Chains (update w.st.pc t p) d.free) (hready : Ready (update w.st.pc t p) d)
    (hrings : d.rings = w.st.disk.rings) : VInv { w with st := w.st.goto t p d } where
  mutex := hmutex
  calls := h.calls.congr (view_update req hp.req)
  chains := hchains
  ready := hready
  written := fun u x hu => by
    show d.rings.availRing (RingBuffer.slot NUM d.rings.availIdx) = _
    rw [hrings]
    exact h.written u x (by rwa [← view_update notify hp.notify u])
  queue := by
    show Queue (update w.st.pc t p) d.rings _ _ _
    rw [hrings]
    exact h.queue.congr (view_update _ hp.waiting) (view_update _ hp.early)
      (view_update _ hp.armed) (view_update _ hp.done)

theorem quiet {l : Option Tid} (hl : p.Holds → l = some t) :
    VInv { w with st := w.st.goto t p { w.st.disk with vdiskLock := l } } := by
  exact h.same hp (h.mutex_goto ht hl) (h.chains.congr (view_update idx hidx))
    (h.ready.congr (view_update VPc.ready hrdy) rfl rfl) rfl

omit ht in
theorem acquire : Safe w (w.st.acquire t p) := by
  unfold VState.acquire
  split
  next hfree => exact h.quiet (.inl hfree) hp hidx hrdy fun _ => rfl
  · trivial

end

variable {r : Req B} {x : Idx}

section
omit [DecidableEq Tid]

theorem room (h : VInv w) :
    (w.st.disk.availIdx - w.st.disk.lastAvail).toNat < NUM ∧
    (w.st.disk.usedId - ofNat 16 w.consumed.length).toNat < NUM := by
  have hlen := h.queue.length_heads h.chains h.ready
  simp only [Rings.heads, Rings.todo, List.length_append, List.length_map, NUM] at hlen ⊢
  have havail : w.st.disk.rings.avail.length =
      (w.st.disk.availIdx - w.st.disk.lastAvail).toNat := RingBuffer.length_contents
  have hused : (w.st.disk.rings.used w.consumed.length).length =
      (w.st.disk.usedId - ofNat 16 w.consumed.length).toNat := RingBuffer.length_contents
  constructor <;> omega

theorem disjoint (h : VInv w) {u : Tid} {y : Idx} (hut : u ≠ t) (ht : (w.st.pc t).idx = some x)
    (hu : (w.st.pc u).idx = some y) : ∀ i ∈ y.toList, i ∉ x.toList := by
  intro i hy hx
  exact hut (h.chains.disjoint hu ht hy hx)

end

section
variable (h : VInv w)
include h

theorem allocTurn (hpc : w.st.pc t = .rwAlloc r) : Safe w (some (w.st.allocTurn t r)) := by
  have hlock := h.locked hpc trivial
  unfold VState.allocTurn
  rcases Vdisk.alloc3Desc_cases w.st.disk with ⟨x, hnodup, hfree, heq⟩ | ⟨desc, hdesc, heq⟩
  · rw [heq]
    refine h.same (by constructor <;> rw [hpc] <;> rfl)
      (h.mutex_goto (.inr hlock) fun _ => hlock) ?_ ?_ rfl
    · refine h.chains.alloc (by rw [hpc]; rfl) rfl hnodup hfree fun i => ?_
      rw [Vdisk.hold_free, Vdisk.hold_free, Vdisk.hold_free]
      simp only [Idx.toList, List.mem_cons, List.not_mem_nil, or_false]
      split_ifs <;> simp_all
    · exact h.ready.congr (view_at VPc.ready hpc _ rfl) rfl rfl
  · rw [heq]
    refine h.same
      (by constructor <;> rw [hpc] <;> rfl) (h.mutex_goto (.inr hlock) False.elim)
      (h.chains.congr (view_at idx hpc _ rfl)) ?_ rfl
    intro u r' y hu
    rw [view_at VPc.ready hpc (.rwAllocSleep r) rfl u] at hu
    refine (h.ready u r' y hu).congr (fun i hi => hdesc i ?_) rfl
    exact (h.chains.owner i).mpr ⟨u, y, idx_of_ready hu, hi⟩

theorem format [DecidableEq B] (hpc : w.st.pc t = .rwFormat r x) :
    VInv { w with st := w.st.goto t (.rwPublish r x) (w.st.disk.format r x) } := by
  have hlock := h.locked hpc trivial
  have hidx : (w.st.pc t).idx = some x := by rw [hpc]; rfl
  refine ⟨h.mutex_goto (.inr hlock) fun _ => hlock, h.calls.congr (view_at req hpc _ rfl),
    h.chains.congr (view_at idx hpc _ rfl), fun u r' y hu => ?_,
    h.written.congr (view_at notify hpc _ rfl), h.queue.arm hpc⟩
  · rcases view_cases VPc.ready hu with ⟨-, hr'⟩ | ⟨hut, hold⟩
    · cases hr'
      exact Vdisk.formatted_format _ _ (h.chains.nodup hidx)
    · have hdis := h.disjoint hut hidx (idx_of_ready hold)
      refine (h.ready u r' y hold).congr
        (fun i hi => Vdisk.format_desc_of_notMem _ _ (hdis i hi)) ?_
      refine update_of_ne (fun heq => hdis y.i0 (by simp [Idx.toList]) ?_) ..
      simp [heq, Idx.toList]

theorem publish (hpc : w.st.pc t = .rwPublish r x) :
    VInv { w with st := w.st.goto t (.rwNotify r x) (w.st.disk.publish x) } := by
  have hlock := h.locked hpc trivial
  refine ⟨h.mutex_goto (.inr hlock) fun _ => hlock, h.calls.congr (view_at req hpc _ rfl),
    h.chains.congr (view_at idx hpc _ rfl),
    h.ready.congr (view_at VPc.ready hpc _ rfl) rfl rfl, fun u y hu => ?_, ?_⟩
  · rcases view_cases notify hu with ⟨-, hy⟩ | ⟨hut, hold⟩
    · cases hy
      exact update_self ..
    · exact absurd (h.mutex u (VPc.holds_of_notify hold)) (by simp [hlock, Ne.symm hut])
  · have hsame : Queue w.st.pc (w.st.disk.publish x).rings w.finished w.consumed w.returned := by
      refine h.queue.rings_congr rfl ?_ rfl rfl rfl rfl
      have havail : (w.st.disk.publish x).rings.avail = w.st.disk.rings.avail :=
        RingBuffer.contents_update h.room.1 (by decide) _
      unfold Rings.todo
      rw [havail]
      rfl
    exact hsame.congr (view_at _ hpc _ rfl) (view_at _ hpc _ rfl)
      (view_at _ hpc _ rfl) (view_at _ hpc _ rfl)

theorem push (hpc : w.st.pc t = .rwNotify r x) :
    VInv { w with
      st := w.st.goto t (.rwWait r x) { w.st.disk with availIdx := w.st.disk.availIdx + 1 } } := by
  have hlock := h.locked hpc trivial
  have hidx : (w.st.pc t).idx = some x := by rw [hpc]; rfl
  refine ⟨h.mutex_goto (.inr hlock) fun _ => hlock, h.calls.congr (view_at req hpc _ rfl),
    h.chains.congr (view_at idx hpc _ rfl),
    h.ready.congr (view_at VPc.ready hpc _ rfl) rfl rfl, fun u y hu => ?_, ?_⟩
  · rcases view_cases notify hu with ⟨-, hy⟩ | ⟨hut, hold⟩
    · cases hy
    · exact absurd (h.mutex u (VPc.holds_of_notify hold)) (by simp [hlock, Ne.symm hut])
  · refine h.queue.push hpc (h.written t x (by rw [hpc]; rfl)) (fun u r' y hu heq => ?_) h.room.1
    have hut : u ≠ t := by
      rintro rfl
      simp [hpc, VPc.waiting] at hu
    refine h.disjoint hut hidx (idx_of_ready (VPc.ready_of_waiting hu)) y.i0
      (by simp [Idx.toList]) ?_
    simp [heq, Idx.toList]

theorem waitTurn (hpc : w.st.pc t = .rwWait r x) : VInv { w with st := w.st.waitTurn t r x } := by
  have hlock := h.locked hpc trivial
  unfold VState.waitTurn
  split
  · exact h.quiet (.inr hlock) (by constructor <;> rw [hpc] <;> rfl) (by rw [hpc]; rfl)
      (by rw [hpc]; rfl) nofun
  next hbusy =>
    refine ⟨h.mutex_goto (.inr hlock) fun _ => hlock, h.calls.congr (view_at req hpc _ rfl),
      h.chains.congr (view_at idx hpc _ rfl), h.ready.congr (view_at VPc.ready hpc _ rfl) rfl rfl,
      h.written.congr (view_at notify hpc _ rfl), h.queue.finish hpc (Bool.eq_false_iff.mpr hbusy)⟩

theorem freeTurn (hpc : w.st.pc t = .rwFree r x) : Safe w (some (w.st.freeTurn t r x)) := by
  have hlock := h.locked hpc trivial
  have hidx : (w.st.pc t).idx = some x := by rw [hpc]; rfl
  have hform := h.ready t r x (by rw [hpc]; rfl)
  unfold VState.freeTurn
  rw [Vdisk.finishRw_eq hform.toLinked (h.chains.nodup hidx) fun i hi =>
    (h.chains.owner i).mpr ⟨t, x, hidx, hi⟩]
  refine ⟨h.mutex_goto (.inr hlock) nofun, h.calls.returned,
    h.chains.put hidx rfl (Vdisk.giveBack_free _ x), fun u r' y hu => ?_,
    h.written.congr (view_at notify hpc _ rfl), h.queue.returned hpc⟩
  rcases view_cases VPc.ready hu with ⟨-, hr'⟩ | ⟨hut, hold⟩
  · cases hr'
  · have hdis := h.disjoint hut hidx (idx_of_ready hold)
    exact (h.ready u r' y hold).congr (fun i hi => Vdisk.giveBack_desc _ (hdis i hi))
      (Vdisk.giveBack_info _ (hdis y.i0 (by simp [Idx.toList])))

end

section
omit [DecidableEq Tid]

/-- The test of `virtio_disk_intr` is exact: the indices agree modulo `NUM` only if they agree. -/
theorem used_eq (h : VInv w) (heq : w.st.disk.usedIdx.toNat % NUM = w.st.disk.usedId.toNat % NUM) :
    ofNat 16 w.consumed.length = w.st.disk.usedId := by
  have hidx : w.st.disk.usedIdx.toNat = w.consumed.length % NUM := h.queue.usedIdx
  have hroom := h.room.2
  apply BitVec.eq_of_toNat_eq
  rw [BitVec.toNat_sub] at hroom
  simp only [toNat_ofNat, NUM] at hroom hidx heq ⊢
  omega

/-- The body of the loop of `virtio_disk_intr`: the element it reads is the head of the request that
the device has finished next, which still waits. -/
theorem intrTurn [DecidableEq B] (h : VInv w)
    (htest : w.st.disk.usedIdx.toNat % NUM ≠ w.st.disk.usedId.toNat % NUM) :
    ∃ u r x e es rs, w.st.disk.rings.used w.consumed.length = e :: es ∧
      w.st.disk.rings.used (w.consumed.length + 1) = es ∧
      w.finished.drop w.consumed.length = r :: rs ∧ (w.st.pc u).waiting = some (r, x) ∧
      x.i0.val = e.toNat ∧ w.st.disk.intrTurn = .ok (r.b, { w.st.disk with
        busy := update w.st.disk.busy r.b false
        usedIdx := (w.st.disk.usedIdx + 1) % ofNat 16 NUM }) := by
  have hidx : w.st.disk.usedIdx.toNat = w.consumed.length % NUM := h.queue.usedIdx
  have hne : ofNat 16 w.consumed.length ≠ w.st.disk.rings.usedId := by
    intro heq
    apply htest
    show _ = w.st.disk.rings.usedId.toNat % NUM
    rw [← heq, hidx]
    simp only [toNat_ofNat, NUM]
    omega
  obtain ⟨u, r, x, es, rs, hused, hused', hdrop, hu, hx, -⟩ := h.queue.next_used hne
  have hslot : w.st.disk.usedIdx.toNat =
      (RingBuffer.slot NUM (ofNat 16 w.consumed.length)).val := by
    rw [hidx]
    simp only [RingBuffer.slot, Fin.ofNat, toNat_ofNat, NUM]
    omega
  exact ⟨u, r, x, _, es, rs, hused, hused', hdrop, hu, hx,
    Vdisk.intrTurn_eq hslot hx.symm (h.ready u r x (VPc.ready_of_waiting hu)).info⟩

end

theorem intrStep [DecidableEq B] (h : VInv w) (hpc : w.st.pc t = .intrLoop) :
    Safe w (some (w.st.intrStep t)) := by
  have hlock := h.locked hpc trivial
  unfold VState.intrStep
  split
  next htest =>
    obtain ⟨u, r, x, e, es, rs, hused, hused', hdrop, hu, hx, hturn⟩ := h.intrTurn htest
    rw [hturn]
    have hstay : update w.st.pc t .intrLoop = w.st.pc := by rw [← hpc, update_eq_self]
    unfold VState.goto
    rw [hstay]
    exact ⟨h.mutex, h.calls, h.chains, h.ready.congr (fun _ => rfl) rfl rfl, h.written,
      h.queue.consume h.calls hused hused' hdrop hu hx⟩
  · exact h.quiet (.inr hlock) (by constructor <;> rw [hpc] <;> rfl) (by rw [hpc]; rfl)
      (by rw [hpc]; rfl) nofun

theorem advance [DecidableEq B] (h : VInv w) (t : Tid) : Safe w (w.st.advance t) := by
  unfold VState.advance
  cases hpc : w.st.pc t with
  | idle => trivial
  | rwStart r | rwAllocSleep r | rwWaitSleep r x | intrStart =>
    exact h.acquire (by constructor <;> rw [hpc] <;> rfl) (by rw [hpc]; rfl) (by rw [hpc]; rfl)
  | rwAlloc r => exact h.allocTurn hpc
  | rwFormat r x => exact h.format hpc
  | rwPublish r x => exact h.publish hpc
  | rwNotify r x => exact h.push hpc
  | rwWait r x => exact h.waitTurn hpc
  | rwFree r x => exact h.freeTurn hpc
  | intrLoop => exact h.intrStep hpc

section
omit [DecidableEq Tid]

theorem taken (h : VInv w) {head : BitVec 16} (hmem : head ∈ w.st.disk.taken) :
    ∃ r x, w.st.disk.Formatted r x ∧ x.i0.val = head.toNat ∧ WaitsAt w.st.pc head.toNat r := by
  have hheads : head.toNat ∈ w.st.disk.rings.heads w.consumed.length := by
    have : head ∈ w.st.disk.rings.taken := hmem
    refine List.mem_append_right _ (List.mem_append_right _ (List.mem_append_left _ ?_))
    exact List.mem_map_of_mem this
  obtain ⟨t, r, x, ht, hx, -⟩ := h.queue.queued _ hheads
  have hready := VPc.ready_of_waiting ht
  refine ⟨r, x, h.ready t r x hready, hx, fun u r' y hu hy => ?_⟩
  obtain rfl : u = t := by
    refine h.chains.disjoint (i := x.i0) (idx_of_ready (VPc.ready_of_waiting hu))
      (idx_of_ready hready) ?_ (by simp [Idx.toList])
    simp [Idx.toList, Fin.ext (hx.trans hy.symm)]
  rw [ht] at hu
  cases hu
  rfl

theorem device (h : VInv w) (a : VState.DevAct) : Safe w (w.st.device a) := by
  cases a with
  | take =>
    simp only [VState.device, Vdisk.take]
    split
    · trivial
    next hne =>
      exact ⟨h.mutex, h.calls, h.chains, h.ready.congr (fun _ => rfl) rfl rfl, h.written,
        h.queue.take hne⟩
  | serve head =>
    simp only [VState.device]
    split
    next hhead =>
      obtain ⟨r, x, hform, hx, hwait⟩ := h.taken hhead.1
      simp only [Vdisk.serve, hform.readChain_eq hx, bind, Except.bind, Except.map]
      have hinfo : update w.st.disk.info x.i0 { w.st.disk.info x.i0 with status := 0 } =
          w.st.disk.info := by
        rw [hform.info]
        exact update_eq_self_iff.mpr hform.info.symm
      exact ⟨h.mutex, h.calls, h.chains, h.ready.congr (fun _ => rfl) rfl hinfo, h.written,
        h.queue.serve hhead.1 (Option.isNone_iff_eq_none.mp hhead.2) hwait h.room.2⟩
    · trivial
  | count =>
    simp only [VState.device]
    cases hserving : w.st.disk.serving with
    | none => trivial
    | some hr =>
      obtain ⟨htag, hqueue⟩ := h.queue.count h.calls hserving h.room.2
      refine ⟨h.mutex, ⟨h.calls.lt, h.calls.inj, h.calls.buf, fun r' hr' => ?_⟩, h.chains,
        h.ready.congr (fun _ => rfl) rfl rfl, h.written, hqueue⟩
      rcases List.mem_append.mp hr' with hold | hnew
      · exact h.calls.fin_lt r' hold
      · rw [List.mem_singleton.mp hnew]
        exact htag

end

/-- A thread that is not in a call leaves the locks as they are when it starts one. -/
theorem mutex_enter (h : VInv w) (hp : ¬ p.Holds) (u : Tid)
    (hu : (update w.st.pc t p u).Holds) : w.st.disk.vdiskLock = some u := by
  by_cases hut : u = t
  · subst hut
    rw [update_self] at hu
    exact absurd hu hp
  · rw [update_of_ne hut] at hu
    exact h.mutex u hu

theorem step [DecidableEq B] {w' : VWorld Tid B} (h : VInv w) (hs : VStep w w') : VInv w' := by
  cases hs with
  | call t b write hidle hown =>
    have hfresh : (⟨w.calls, b, write⟩ : Req B) ∉ w.finished :=
      fun hmem => absurd (h.calls.fin_lt _ hmem) (Nat.lt_irrefl _)
    exact ⟨h.mutex_enter nofun, h.calls.call hown,
      h.chains.congr (view_update idx (by rw [hidle]; rfl)),
      h.ready.congr (view_update VPc.ready (by rw [hidle]; rfl)) rfl rfl,
      h.written.congr (view_update notify (by rw [hidle]; rfl)), h.queue.call hidle hfresh⟩
  | intr t hidle =>
    exact h.same (by constructor <;> rw [hidle] <;> rfl) (h.mutex_enter nofun)
      (h.chains.congr (view_update idx (by rw [hidle]; rfl)))
      (h.ready.congr (view_update VPc.ready (by rw [hidle]; rfl)) rfl rfl) rfl
  | run t hrun =>
    have hsafe := h.advance t
    rwa [hrun] at hsafe
  | device a hrun =>
    have hsafe := h.device a
    rwa [hrun] at hsafe

end VInv

variable [DecidableEq B] {t : Tid}

theorem VReach.inv (h : VReach w) : VInv w := by
  induction h with
  | refl =>
    have hheads : (Vdisk.init : Vdisk Tid B).rings.heads 0 = [] := by
      simp [Rings.heads, Rings.used, Rings.todo, Rings.avail, Vdisk.rings, Vdisk.init,
        RingBuffer.contents]
    have hused : (Vdisk.init : Vdisk Tid B).rings.used 0 = [] := by
      simpa using (List.append_eq_nil_iff.mp hheads).1
    refine ⟨by rintro _ ⟨⟩, ⟨by rintro _ _ ⟨⟩, by rintro _ _ _ _ ⟨⟩, by rintro _ _ _ _ ⟨⟩, by rintro _ ⟨⟩⟩,
      ⟨fun i => ?_, by rintro _ _ ⟨⟩, by rintro _ _ _ _ _ ⟨⟩⟩, by rintro _ _ _ ⟨⟩, by rintro _ _ ⟨⟩, ?_⟩
    · simp [Vdisk.init, idx]
    · refine ⟨?_, ?_, rfl, rfl, congrArg List.length hused, ?_, by rintro _ _ ⟨⟩,
        fun _ _ => by rintro _ _ _ ⟨⟩, by rintro _ _ ⟨⟩, by rintro _ _ ⟨⟩, by rintro _ _ _ ⟨⟩,
        by rintro _ _ ⟨⟩, List.nodup_nil, by rintro _ ⟨⟩⟩
      · show ((Vdisk.init : Vdisk Tid B).rings.heads 0).Nodup
        rw [hheads]
        exact List.nodup_nil
      · show ∀ h ∈ (Vdisk.init : Vdisk Tid B).rings.heads 0, _
        rw [hheads]
        exact List.forall_mem_nil _
      · intro e r her
        simp at her
  | tail _ hs ih => exact ih.step hs

/-! ## What `virtio_disk_intr` does -/

/-- Steps of the loop of `virtio_disk_intr`. -/
def VEvent.OfIntr : VEvent B → Prop
  | .consumed _ | .drained => True
  | _ => False

variable {s' : VState Tid B}

theorem VState.advance_intr {s : VState Tid B} {e : VEvent B}
    (h : s.advance t = some (.ok (e, s'))) (he : e.OfIntr) : s.intrStep t = .ok (e, s') := by
  unfold advance at h
  cases hpc : s.pc t with
  | intrLoop =>
    rw [hpc] at h
    exact Option.some.inj h
  | idle => simp [hpc] at h
  | rwStart | rwAllocSleep | rwWaitSleep | intrStart =>
    simp only [hpc, acquire] at h
    split at h <;> cases h
    exact he.elim
  | rwFormat | rwPublish | rwNotify | rwWait =>
    rw [hpc] at h
    cases h
    exact he.elim
  | rwAlloc r =>
    simp only [hpc, allocTurn, Option.some.injEq] at h
    rcases Vdisk.alloc3Desc_cases s.disk with ⟨x, -, -, heq⟩ | ⟨desc, -, heq⟩ <;>
      · rw [heq] at h
        cases h
        exact he.elim
  | rwFree r x =>
    simp only [hpc, freeTurn, Option.some.injEq] at h
    cases hd : s.disk.finishRw x with
    | error f =>
      rw [hd] at h
      cases h
    | ok d =>
      rw [hd] at h
      cases h
      exact he.elim

theorem VInv.consumed (h : VInv w) {b : B} (hs : w.st.advance t = some (.ok (.consumed b, s'))) :
    ∃ u r x, w.finished[w.consumed.length]? = some r ∧ (w.st.pc u).waiting = some (r, x) ∧
      r.b = b := by
  have hstep := VState.advance_intr hs trivial
  unfold VState.intrStep at hstep
  split at hstep
  next htest =>
    obtain ⟨u, r, x, e, es, rs, -, -, hdrop, hu, -, hturn⟩ := h.intrTurn htest
    rw [hturn] at hstep
    cases hstep
    refine ⟨u, r, x, ?_, hu, rfl⟩
    have hhead := congrArg (·[0]?) hdrop
    simpa [List.getElem?_drop] using hhead
  · cases hstep

theorem VInv.drained (h : VInv w)
    (hs : w.st.advance t = some (.ok (.drained, s'))) : w.consumed = w.finished.map Req.b := by
  have hstep := VState.advance_intr hs trivial
  unfold VState.intrStep at hstep
  split at hstep
  next htest =>
    obtain ⟨u, r, x, e, es, rs, -, -, -, -, -, hturn⟩ := h.intrTurn htest
    rw [hturn] at hstep
    cases hstep
  next htest =>
    have hnil : w.st.disk.rings.used w.consumed.length = [] :=
      RingBuffer.contents_eq_nil_iff.mpr (h.used_eq (not_not.mp htest))
    have hlen := h.queue.used_length
    rw [hnil, List.length_nil, List.length_drop] at hlen
    rw [← List.take_of_length_le (l := w.finished) (i := w.consumed.length) (by omega)]
    exact h.queue.con_eq

/-- The protocol is safe. In every reachable state: the descriptors that are not free are the chains
of the requests that have descriptors and have not returned, three distinct ones each, and disjoint;
no step of a thread or of the device faults; the device finishes no request twice; what
`virtio_disk_intr` consumes next is the completion that comes next, of a request that still waits,
so that it consumes each one once, and all of them before it returns; and requests that have returned
were finished by the device. -/
theorem virtio_protocol {w : VWorld Tid B} (h : VReach w) :
    (∀ i, w.st.disk.free i = false ↔ ∃ t x, (w.st.pc t).idx = some x ∧ i ∈ x.toList) ∧
    (∀ t x, (w.st.pc t).idx = some x → x.toList.Nodup) ∧
    (∀ t u x y, (w.st.pc t).idx = some x → (w.st.pc u).idx = some y → t ≠ u →
      x.toList.Disjoint y.toList) ∧
    (∀ t f, w.st.advance t ≠ some (.error f)) ∧
    (∀ a f, w.st.device a ≠ some (.error f)) ∧
    w.finished.Nodup ∧
    w.consumed <+: w.finished.map Req.b ∧
    (∀ t b s', w.st.advance t = some (.ok (.consumed b, s')) →
      ∃ u r x, w.finished[w.consumed.length]? = some r ∧ (w.st.pc u).waiting = some (r, x) ∧
        r.b = b) ∧
    (∀ t s', w.st.advance t = some (.ok (.drained, s')) → w.consumed = w.finished.map Req.b) ∧
    ∀ r ∈ w.returned, r ∈ w.finished := by
  have hinv := h.inv
  refine ⟨hinv.chains.owner, fun t x => hinv.chains.nodup, fun t u x y hx hy htu i hi hi' => ?_,
    fun t f heq => ?_, fun a f heq => ?_, hinv.queue.fin_nodup, ?_, fun t b s' => hinv.consumed,
    fun t s' => hinv.drained, hinv.queue.ret⟩
  · exact htu (hinv.chains.disjoint hx hy hi hi')
  · have hsafe := hinv.advance t
    rw [heq] at hsafe
    exact hsafe
  · have hsafe := hinv.device a
    rw [heq] at hsafe
    exact hsafe
  · rw [hinv.queue.con_eq]
    exact (List.take_prefix _ _).map _

/-- A thread reads a block: the device serves the request, the interrupt passes it on, and the call
returns. -/
theorem virtio_protocol_read :
    ∃ w : VWorld Bool Unit, VReach w ∧ w.returned = [⟨0, (), false⟩] ∧
      (∀ r ∈ w.returned, r ∈ w.finished) ∧ w.consumed <+: w.finished.map Req.b := by
  have hasked : VReach (_ : VWorld Bool Unit) :=
    .head (.call false () false rfl nofun) <| .head (.run false rfl) <| .head (.run false rfl) <|
      .head (.run false rfl) <| .head (.run false rfl) <| .head (.run false rfl) <|
      .single (.run false rfl)
  have hserved : VReach _ :=
    ((hasked.tail (.device .take rfl)).tail (.device (.serve 0) rfl)).tail (.device .count rfl)
  have hpassed : VReach _ :=
    (((hserved.tail (.intr true rfl)).tail (.run true rfl)).tail (.run true rfl)).tail (.run true rfl)
  have hreach : VReach _ := ((hpassed.tail (.run false rfl)).tail (.run false rfl)).tail (.run false rfl)
  obtain ⟨-, -, -, -, -, -, hprefix, -, -, hret⟩ := virtio_protocol hreach
  exact ⟨_, hreach, rfl, hret, hprefix⟩

end Xv6
