import Uboss.Core.SocketSlots
import Mathlib.Data.List.Nodup

/-!
# Requests, events and slots

Which slots are reserved and for which request, and that the requests and events for a socket come
to the slot before it is used for another one.
-/

namespace Uboss.Core

open Math Function List SocketTable

theorem perm_cons_eraseIdx {α : Type} {l : List α} {k : ℕ} {a : α} (h : l[k]? = some a) :
    l.Perm (a :: l.eraseIdx k) := by
  obtain ⟨hk, rfl⟩ := List.getElem?_eq_some_iff.mp h
  exact (getElem_cons_eraseIdx_perm hk).symm

namespace SocketRecycle

variable {ι : Type}

/-- The requests on their way that open a socket. -/
def pending (swapped posting pipe : List (Issued ι)) : List (Issued ι) :=
  swapped ++ posting ++ pipe.filter Issued.opens

/-- The requests and the slots. -/
structure Requests (t : SocketTable ι) (life : Fin maxSocket → ℕ)
    (swapped posting pipe : List (Issued ι)) (known : List (ℕ × ℕ)) : Prop where
  /-- There is one request for each slot that is reserved. -/
  nodup : ((pending swapped posting pipe).map Issued.slot).Nodup
  reserved : ∀ i, (t.slot i).socket.type = .reserve ↔
    ∃ p ∈ pending swapped posting pipe, p.slot = i
  lives : ∀ p ∈ pending swapped posting pipe, life p.slot = p.life
  opening : ∀ p ∈ swapped ++ posting, p.opens = true
  /-- The id is stored before the request is sent. -/
  named : ∀ p ∈ posting ++ pipe.filter Issued.opens, (t.slot p.slot).id = p.id
  /-- The id is not known before the request is sent, -/
  unused : ∀ p ∈ swapped ++ posting, Unused known pipe p.id
  /-- and so this is the first request for it. -/
  order : pipe.Pairwise fun p q => q.opens = true → p.id ≠ q.id
  /-- An id that is known, or in a request, is that of the same socket, if the slot has it. -/
  refs : ∀ x ∈ known ++ pipe.map fun p => (p.id, p.life), (∀ q ∈ swapped, q.slot ≠ hashId x.1) →
    (t.slot (hashId x.1)).socket.type ≠ .invalid → (t.slot (hashId x.1)).id = x.1 →
    life (hashId x.1) = x.2

/-- What most steps do to a slot: the id remains, and if the type changes, the socket was open. -/
def Drifts (t t' : SocketTable ι) : Prop := ∀ i, (t'.slot i).id = (t.slot i).id ∧
    ((t'.slot i).socket.type = (t.slot i).socket.type ∨
      (t.slot i).socket.IsOpen ∧ (t'.slot i).socket.type ≠ .reserve)

theorem change_slot_of_ne {t t' : SocketTable ι} {i j : Fin maxSocket}
    (h : SocketTable.Change t i t') (hj : j ≠ i) : t'.slot j = t.slot j := by
  cases h with
  | stay => rfl
  | put _ => exact put_slot_of_ne hj _
  | release => exact put_slot_of_ne hj _
  | start => exact put_slot_of_ne hj _

theorem drifts_of_change {t t' : SocketTable ι} {i : Fin maxSocket}
    (h : SocketTable.Change t i t') : Drifts t t' := by
  intro j
  by_cases hj : j = i
  · subst hj
    cases h with
    | stay => exact ⟨rfl, .inl rfl⟩
    | @put x hkept =>
      rw [put_slot_self]
      refine ⟨rfl, ?_⟩
      rcases hkept.type with heq | ⟨hy, hx⟩ | ⟨hy, hx⟩
      · exact .inl heq
      · exact .inr ⟨by simp [Socket.IsOpen, hy], by simp [hx]⟩
      · exact .inr ⟨Socket.isOpen_of_registered hy, by simp [hx]⟩
    | @release x hopen hinvalid _ _ =>
      have hself : (t.release j x).slot j = { t.slot j with socket := x } := put_slot_self t j x
      rw [hself]
      exact ⟨rfl, .inr ⟨hopen, by simp [hinvalid]⟩⟩
    | @start fd type hunstarted htype _ _ =>
      rw [setType, put_slot_self]
      refine ⟨rfl, .inr ⟨Socket.isOpen_of_unstarted hunstarted, ?_⟩⟩
      rcases htype with rfl | rfl <;> simp
  · rw [change_slot_of_ne h hj]
    exact ⟨rfl, .inl rfl⟩

namespace Requests

variable {t t' : SocketTable ι} {life : Fin maxSocket → ℕ}
  {swapped posting pipe : List (Issued ι)} {known : List (ℕ × ℕ)}

variable {p : Issued ι} {q : Issued ι} {rest : List (Issued ι)}

theorem reserve_iff_of_drifts (h : Drifts t t') (i : Fin maxSocket) :
    (t'.slot i).socket.type = .reserve ↔ (t.slot i).socket.type = .reserve := by
  rcases (h i).2 with heq | ⟨hopen, hne⟩
  · rw [heq]
  · exact iff_of_false hne hopen.2

theorem drift (h : Requests t life swapped posting pipe known) (hd : Drifts t t') :
    Requests t' life swapped posting pipe known where
  nodup := h.nodup
  reserved i := (reserve_iff_of_drifts hd i).trans (h.reserved i)
  lives := h.lives
  opening := h.opening
  named p hp := (hd p.slot).1.trans (h.named p hp)
  unused := h.unused
  order := h.order
  refs x hx hfree htype hid := by
    refine h.refs x hx hfree (fun hinvalid => ?_) ((hd _).1.symm.trans hid)
    rcases (hd (hashId x.1)).2 with heq | ⟨hopen, -⟩
    · exact htype (heq.trans hinvalid)
    · exact hopen.1 hinvalid

theorem mem_pending_of_named (hp : p ∈ posting ++ pipe.filter Issued.opens) :
    p ∈ pending swapped posting pipe := by
  rw [pending, append_assoc]
  exact mem_append_right swapped hp

section

variable (h : Requests t life swapped posting pipe known)
include h

theorem slot_ne_of_invalid {i : Fin maxSocket} (hi : (t.slot i).socket.type = .invalid)
    (hp : p ∈ pending swapped posting pipe) : p.slot ≠ i := by
  intro heq
  have hreserve := (h.reserved i).mpr ⟨p, hp, heq⟩
  rw [hi] at hreserve
  cases hreserve

/-- A worker reserves a slot that is free. -/
theorem swap (hfree : (t.slot q.slot).socket.type = .invalid) (hq : q.opens = true)
    (hlife : q.life = life q.slot + 1) (hunused : Unused known pipe q.id) :
    Requests (t.setType q.slot .reserve) (update life q.slot (life q.slot + 1))
      (q :: swapped) posting pipe known where
  nodup := by
    refine nodup_cons.mpr ⟨fun hmem => ?_, h.nodup⟩
    obtain ⟨p, hp, heq⟩ := mem_map.mp hmem
    exact h.slot_ne_of_invalid hfree hp heq
  reserved i := by
    by_cases hi : i = q.slot
    · subst hi
      refine iff_of_true ?_ ⟨q, mem_cons_self, rfl⟩
      rw [setType, put_slot_self]
    · rw [setType, put_slot_of_ne hi, h.reserved i]
      constructor
      · rintro ⟨p, hp, rfl⟩
        exact ⟨p, mem_cons_of_mem q hp, rfl⟩
      · rintro ⟨p, hp, rfl⟩
        rcases mem_cons.mp hp with rfl | hp
        · exact absurd rfl hi
        · exact ⟨p, hp, rfl⟩
  lives p hp := by
    rcases mem_cons.mp hp with rfl | hp
    · rw [update_self, hlife]
    · rw [update_of_ne (h.slot_ne_of_invalid hfree hp)]
      exact h.lives p hp
  opening p hp := by
    rcases mem_cons.mp hp with rfl | hp
    · exact hq
    · exact h.opening p hp
  named p hp := by
    rw [setType, put_slot_of_ne (h.slot_ne_of_invalid hfree (mem_pending_of_named hp))]
    exact h.named p hp
  unused p hp := by
    rcases mem_cons.mp hp with rfl | hp
    · exact hunused
    · exact h.unused p hp
  order := h.order
  refs x hx hnone htype hid := by
    -- of the slot that is reserved now nothing is said before the id is stored
    have hne : hashId x.1 ≠ q.slot := (hnone q mem_cons_self).symm
    rw [setType, put_slot_of_ne hne] at htype hid
    rw [update_of_ne hne]
    exact h.refs x hx (fun p hp => hnone p (mem_cons_of_mem q hp)) htype hid

theorem slot_ne_of_perm {q p : Issued ι} {l : List (Issued ι)}
    (hperm : (pending swapped posting pipe).Perm (q :: l)) (hp : p ∈ l) : p.slot ≠ q.slot := by
  have hnodup := (hperm.map Issued.slot).nodup_iff.mp h.nodup
  intro heq
  exact (nodup_cons.mp hnodup).1 (heq ▸ mem_map_of_mem hp)

end

theorem pending_of_swapped (hperm : swapped.Perm (q :: rest)) :
    (pending swapped posting pipe).Perm (q :: pending rest posting pipe) :=
  (hperm.append_right posting).append_right _

theorem pending_store (q : Issued ι) (rest : List (Issued ι)) :
    (pending rest (q :: posting) pipe).Perm (q :: pending rest posting pipe) :=
  perm_middle.append_right _

/-- The worker stores the id. -/
theorem store (h : Requests t life swapped posting pipe known) (hperm : swapped.Perm (q :: rest)) :
    Requests (t.nameSlot q.id) life rest (q :: posting) pipe known := by
  have hbefore : (pending swapped posting pipe).Perm (q :: pending rest posting pipe) :=
    pending_of_swapped hperm
  have hall := hbefore.trans (pending_store q rest).symm
  have hlist : (swapped ++ posting).Perm (rest ++ q :: posting) :=
    (hperm.append_right posting).trans perm_middle.symm
  have htype := nameSlot_type t q.id
  have hself : ((t.nameSlot q.id).slot q.slot).id = q.id :=
    congrArg Slot.id (nameSlot_slot_self t q.id)
  exact {
    nodup := (hall.map Issued.slot).nodup_iff.mp h.nodup
    reserved := fun i => by
      rw [htype, h.reserved]
      exact exists_congr fun p => and_congr_left fun _ => hall.mem_iff
    lives := fun p hp => h.lives p (hall.mem_iff.mpr hp)
    opening := fun p hp => h.opening p (hlist.mem_iff.mpr hp)
    named := fun p hp => by
      rcases mem_cons.mp hp with rfl | hp
      · exact hself
      · have hne := h.slot_ne_of_perm hbefore (mem_pending_of_named hp)
        rw [nameSlot_slot_of_ne hne]
        exact h.named p hp
    unused := fun p hp => h.unused p (hlist.mem_iff.mpr hp)
    order := h.order
    refs := fun x hx hnone hinvalid hid => by
      rw [htype] at hinvalid
      by_cases hi : hashId x.1 = q.slot
      · -- the id that is stored was not known
        rw [hi, hself] at hid
        obtain ⟨hknown, hpipe⟩ := h.unused q (mem_append_left _ (hperm.mem_iff.mpr mem_cons_self))
        rcases mem_append.mp hx with hx | hx
        · exact absurd hid.symm (hknown x hx)
        · obtain ⟨p, hp, rfl⟩ := mem_map.mp hx
          exact absurd hid.symm (hpipe p hp)
      · rw [nameSlot_slot_of_ne hi] at hid
        refine h.refs x hx (fun p hp => ?_) hinvalid hid
        rcases mem_cons.mp (hperm.mem_iff.mp hp) with rfl | hp
        · exact fun heq => hi heq.symm
        · exact hnone p hp }

theorem pending_post (hq : q.opens = true) (hperm : posting.Perm (q :: rest)) :
    (pending swapped posting pipe).Perm (pending swapped rest (pipe ++ [q])) := by
  unfold pending
  rw [filter_append, filter_singleton, hq, cond_true, ← append_assoc]
  have hfirst : (swapped ++ posting).Perm (q :: (swapped ++ rest)) :=
    (hperm.append_left swapped).trans perm_middle
  exact (hfirst.append_right _).trans (perm_append_singleton ..).symm

/-- The request that opens the socket is sent, and the id becomes known. -/
theorem post (h : Requests t life swapped posting pipe known) (hperm : posting.Perm (q :: rest)) :
    Requests t life swapped rest (pipe ++ [q]) (known ++ [(q.id, q.life)]) := by
  have hmem : q ∈ swapped ++ posting := mem_append_right _ (hperm.mem_iff.mpr mem_cons_self)
  have hq := h.opening q hmem
  have hall : (pending swapped posting pipe).Perm (pending swapped rest (pipe ++ [q])) :=
    pending_post hq hperm
  have hsub : ∀ p ∈ swapped ++ rest, p ∈ swapped ++ posting := fun p hp =>
    (mem_append.mp hp).elim (mem_append_left _) fun hp =>
      mem_append_right _ (hperm.mem_iff.mpr (mem_cons_of_mem q hp))
  have hbefore : (pending swapped posting pipe).Perm (q :: pending swapped rest pipe) :=
    ((hperm.append_left swapped).trans perm_middle).append_right _
  exact {
    nodup := (hall.map Issued.slot).nodup_iff.mp h.nodup
    reserved := fun i => (h.reserved i).trans
      (exists_congr fun p => and_congr_left fun _ => hall.mem_iff)
    lives := fun p hp => h.lives p (hall.mem_iff.mpr hp)
    opening := fun p hp => h.opening p (hsub p hp)
    named := fun p hp => by
      refine h.named p ?_
      rw [filter_append, filter_singleton, hq, cond_true, ← append_assoc,
        mem_append, mem_singleton] at hp
      rcases hp with hp | rfl
      · rw [mem_append] at hp ⊢
        exact hp.imp_left fun hp => hperm.mem_iff.mpr (mem_cons_of_mem q hp)
      · exact mem_append_left _ (hperm.mem_iff.mpr mem_cons_self)
    unused := fun p hp => by
      have hne : q.id ≠ p.id := fun heq =>
        h.slot_ne_of_perm hbefore (mem_append_left _ hp) (congrArg hashId heq).symm
      obtain ⟨hknown, hpipe⟩ := h.unused p (hsub p hp)
      refine ⟨fun x hx => ?_, fun x hx => ?_⟩
      · rcases mem_append.mp hx with hx | hx
        · exact hknown x hx
        · rw [mem_singleton.mp hx]
          exact hne
      · rcases mem_append.mp hx with hx | hx
        · exact hpipe x hx
        · rw [mem_singleton.mp hx]
          exact hne
    order := by
      refine pairwise_append.mpr ⟨h.order, pairwise_singleton .., fun p hp x hx _ => ?_⟩
      rw [mem_singleton.mp hx]
      exact (h.unused q hmem).2 p hp
    refs := fun x hx hnone htype hid => by
      by_cases hx' : x = (q.id, q.life)
      · subst hx'
        exact h.lives q (hbefore.mem_iff.mpr mem_cons_self)
      · refine h.refs x ?_ hnone htype hid
        simp only [map_append, map_cons, map_nil, mem_append, mem_singleton, hx', or_false] at hx
        exact mem_append.mpr hx }

theorem mono (h : Requests t life swapped posting pipe known) {known' : List (ℕ × ℕ)}
    (hknown : ∀ x ∈ known', x ∈ known) : Requests t life swapped posting pipe known' where
  nodup := h.nodup
  reserved := h.reserved
  lives := h.lives
  opening := h.opening
  named := h.named
  unused p hp := ⟨fun x hx => (h.unused p hp).1 x (hknown x hx), (h.unused p hp).2⟩
  order := h.order
  refs x hx := h.refs x (mem_append.mpr ((mem_append.mp hx).imp_left (hknown x)))

theorem pending_append (hp : p.opens = false) :
    pending swapped posting (pipe ++ [p]) = pending swapped posting pipe := by
  simp [pending, filter_append, hp]

variable (h : Requests t life swapped posting pipe known)
include h

theorem request (hq : q.opens = false) (hmem : (q.id, q.life) ∈ known) :
    Requests t life swapped posting (pipe ++ [q]) known where
  nodup := by
    rw [pending_append hq]
    exact h.nodup
  reserved := by
    rw [pending_append hq]
    exact h.reserved
  lives := by
    rw [pending_append hq]
    exact h.lives
  opening := h.opening
  named := by
    rw [filter_append, filter_singleton, hq, cond_false, append_nil]
    exact h.named
  unused p hp := by
    obtain ⟨hknown, hpipe⟩ := h.unused p hp
    refine ⟨hknown, fun x hx => ?_⟩
    rcases mem_append.mp hx with hx | hx
    · exact hpipe x hx
    · rw [mem_singleton.mp hx]
      exact hknown (q.id, q.life) hmem
  order := by
    refine pairwise_append.mpr ⟨h.order, pairwise_singleton .., fun p _ x hx hopens => ?_⟩
    rw [mem_singleton.mp hx, hq] at hopens
    cases hopens
  refs x hx := by
    refine h.refs x ?_
    rw [map_append, ← append_assoc, mem_append] at hx
    rcases hx with hx | hx
    · exact hx
    · rw [map_singleton, mem_singleton] at hx
      exact mem_append_left _ (hx ▸ hmem)

theorem pop (hpipe : pipe = q :: rest) (hq : q.opens = false) :
    Requests t life swapped posting rest known := by
  subst hpipe
  have hfilter : (q :: rest).filter Issued.opens = rest.filter Issued.opens :=
    filter_cons_of_neg (by simp [hq])
  have hpending : pending swapped posting (q :: rest) = pending swapped posting rest := by
    rw [pending, hfilter, pending]
  exact {
    nodup := hpending ▸ h.nodup
    reserved := hpending ▸ h.reserved
    lives := hpending ▸ h.lives
    opening := h.opening
    named := hfilter ▸ h.named
    unused := fun p hp => ⟨(h.unused p hp).1, fun x hx => (h.unused p hp).2 x (.tail q hx)⟩
    order := (pairwise_cons.mp h.order).2
    refs := fun x hx => h.refs x (mem_append.mpr
      ((mem_append.mp hx).imp_right (.tail _))) }

/-- A request that opens a socket is executed. -/
theorem opened (hpipe : pipe = q :: rest) (hq : q.opens = true)
    (hother : ∀ i, i ≠ q.slot → t'.slot i = t.slot i)
    (htype : (t'.slot q.slot).socket.type ≠ .reserve) (hid : (t'.slot q.slot).id = q.id) :
    Requests t' life swapped posting rest known := by
  subst hpipe
  have hfilter : (q :: rest).filter Issued.opens = q :: rest.filter Issued.opens :=
    filter_cons_of_pos hq
  have hperm : (pending swapped posting (q :: rest)).Perm (q :: pending swapped posting rest) := by
    rw [pending, hfilter]
    exact perm_middle
  have hne : ∀ p ∈ pending swapped posting rest, p.slot ≠ q.slot :=
    fun p hp => h.slot_ne_of_perm hperm hp
  have hmem : ∀ p ∈ pending swapped posting rest, p ∈ pending swapped posting (q :: rest) :=
    fun p hp => hperm.mem_iff.mpr (mem_cons_of_mem q hp)
  have hbefore : (t.slot q.slot).id = q.id :=
    h.named q (mem_append_right _ (hfilter ▸ mem_cons_self))
  exact {
    nodup := (nodup_cons.mp ((hperm.map Issued.slot).nodup_iff.mp h.nodup)).2
    reserved := fun i => by
      by_cases hi : i = q.slot
      · subst hi
        exact iff_of_false htype fun ⟨p, hp, heq⟩ => hne p hp heq
      · rw [hother i hi, h.reserved i]
        constructor
        · rintro ⟨p, hp, rfl⟩
          rcases mem_cons.mp (hperm.mem_iff.mp hp) with rfl | hp
          · exact absurd rfl hi
          · exact ⟨p, hp, rfl⟩
        · rintro ⟨p, hp, rfl⟩
          exact ⟨p, hmem p hp, rfl⟩
    lives := fun p hp => h.lives p (hmem p hp)
    opening := h.opening
    named := fun p hp => by
      rw [hother p.slot (hne p (mem_pending_of_named hp))]
      refine h.named p ?_
      rw [hfilter]
      exact mem_append.mpr ((mem_append.mp hp).imp_right (.tail q))
    unused := fun p hp => ⟨(h.unused p hp).1, fun x hx => (h.unused p hp).2 x (.tail q hx)⟩
    order := (pairwise_cons.mp h.order).2
    refs := fun x hx hnone hinvalid hx' => by
      have hx : x ∈ known ++ (q :: rest).map fun p => (p.id, p.life) :=
        mem_append.mpr ((mem_append.mp hx).imp_right (.tail _))
      by_cases hi : hashId x.1 = q.slot
      · -- the slot has had the id since it was reserved
        rw [hi, hid] at hx'
        refine h.refs x hx hnone (fun hinvalid' => ?_) ?_
        · have hreserve := (h.reserved q.slot).mpr ⟨q, hperm.mem_iff.mpr mem_cons_self, rfl⟩
          rw [← hi, hinvalid'] at hreserve
          cases hreserve
        · rw [hi, hbefore, hx']
      · rw [hother _ hi] at hinvalid hx'
        exact h.refs x hx hnone hinvalid hx' }

/-- A socket is accepted. -/
theorem accepted {id : ℕ} (hfree : (t.slot (hashId id)).socket.type = .invalid)
    (hunused : Unused known pipe id) (hother : ∀ i, i ≠ hashId id → t'.slot i = t.slot i)
    (htype : (t'.slot (hashId id)).socket.type ≠ .reserve) (hid : (t'.slot (hashId id)).id = id) :
    Requests t' (update life (hashId id) (life (hashId id) + 1)) swapped posting pipe
      (known ++ [(id, life (hashId id) + 1)]) := by
  have hne : ∀ p ∈ pending swapped posting pipe, p.slot ≠ hashId id :=
    fun p hp => h.slot_ne_of_invalid hfree hp
  exact {
    nodup := h.nodup
    reserved := fun i => by
      by_cases hi : i = hashId id
      · subst hi
        exact iff_of_false htype fun ⟨p, hp, heq⟩ => hne p hp heq
      · rw [hother i hi]
        exact h.reserved i
    lives := fun p hp => by
      rw [update_of_ne (hne p hp)]
      exact h.lives p hp
    opening := h.opening
    named := fun p hp => by
      rw [hother p.slot (hne p (mem_pending_of_named hp))]
      exact h.named p hp
    unused := fun p hp => by
      refine ⟨fun x hx => ?_, (h.unused p hp).2⟩
      rcases mem_append.mp hx with hx | hx
      · exact (h.unused p hp).1 x hx
      · rw [mem_singleton.mp hx]
        exact fun heq => hne p (mem_append_left _ hp) (congrArg hashId heq).symm
    order := h.order
    refs := fun x hx hnone hinvalid hx' => by
      by_cases hnew : x = (id, life (hashId id) + 1)
      · subst hnew
        exact update_self ..
      have hx : x ∈ known ++ pipe.map fun p => (p.id, p.life) := by
        simp only [mem_append, mem_singleton, hnew, or_false] at hx
        exact mem_append.mpr hx
      by_cases hi : hashId x.1 = hashId id
      · -- nobody has used the id of the new socket
        rw [hi, hid] at hx'
        rcases mem_append.mp hx with hx | hx
        · exact absurd hx'.symm (hunused.1 x hx)
        · obtain ⟨p, hp, rfl⟩ := mem_map.mp hx
          exact absurd hx'.symm (hunused.2 p hp)
      · rw [hother _ hi] at hinvalid hx'
        rw [update_of_ne hi]
        exact h.refs x hx hnone hinvalid hx' }

end Requests

/-- What a request that opens a socket does to its slot. -/
structure OpensSlot (t : SocketTable ι) (id : ℕ) (t' : SocketTable ι) (e : CommandEnd) :
    Prop where
  other : ∀ j, j ≠ hashId id → t'.slot j = t.slot j
  type : (t'.slot (hashId id)).socket.type ≠ .reserve
  id : (t.slot (hashId id)).id = id → (t'.slot (hashId id)).id = id
  failing : ∀ j x, ended e = .failing j x → (t'.slot j).socket.type = .invalid

theorem OpensSlot.congr {t t' u u' : SocketTable ι} {id : ℕ} {e : CommandEnd}
    (h : OpensSlot t id t' e) (hu : u.slot = t.slot) (hu' : u'.slot = t'.slot) :
    OpensSlot u id u' e where
  other := by
    rw [hu, hu']
    exact h.other
  type := by
    rw [hu']
    exact h.type
  id := by
    rw [hu, hu']
    exact h.id
  failing := by
    rw [hu']
    exact h.failing

theorem opensSlot_freed (t : SocketTable ι) (id : ℕ) {e : CommandEnd}
    (he : e = .closed id ∨ ∃ x, e = .failed (hashId id) x) : OpensSlot t id (t.freed id) e := by
  have hself : (t.freed id).slot (hashId id) = { t.slot (hashId id) with
      socket := { (t.slot (hashId id)).socket with type := .invalid } } :=
    put_slot_self ..
  exact {
    other := fun j hj => put_slot_of_ne hj _
    type := by
      rw [hself]
      simp
    id := fun hid => by
      rw [hself]
      exact hid
    failing := fun j x hj => by
      rcases he with rfl | ⟨y, rfl⟩
      · cases hj
      · cases hj
        rw [hself] }

theorem opensSlot_install (t : SocketTable ι) (id : ℕ) (fd : Fd) {x : Socket ι}
    (hx : x.type ≠ .reserve) : OpensSlot t id (t.install (hashId id) id fd x) .done where
  other j hj := update_of_ne hj ..
  type := by
    rw [install_slot_self]
    exact hx
  id _ := by rw [install_slot_self]
  failing j y hj := by cases hj

theorem opensSlot_of_opened {t t' : SocketTable ι} {r : Request ι} {e : CommandEnd}
    (h : SocketTable.Opened t r t' e) : OpensSlot t r.id t' e := by
  cases h with
  | openFailed he =>
    exact (opensSlot_freed _ _ (he.imp_right fun he => ⟨_, he⟩)).congr rfl rfl
  | opened hx _ =>
    refine (opensSlot_install _ _ _ ?_).congr rfl rfl
    rcases hx with hx | hx <;> simp [hx]
  | listened hx _ _ => exact opensSlot_install _ _ _ (by simp [hx])
  | bindFailed => exact opensSlot_freed _ _ (.inl rfl)
  | bound hx _ => exact (opensSlot_install _ _ _ (by simp [hx])).congr rfl rfl
  | udpFailed => exact (opensSlot_freed _ _ (.inr ⟨_, rfl⟩)).congr rfl rfl
  | udpOpened hx _ => exact (opensSlot_install _ _ _ (by simp [hx])).congr rfl rfl

/-- The events and the slots. -/
structure Fetched (t : SocketTable ι) (life : Fin maxSocket → ℕ)
    (events : List (Fin maxSocket × ℕ)) (poller : RecyclePoller) : Prop where
  nodup : (events.map Prod.fst).Nodup
  lives : ∀ e ∈ events, life e.1 = e.2
  unreserved : ∀ e ∈ events, (t.slot e.1).socket.type ≠ .reserve
  /-- The event of a socket that was closed is to be cleared. -/
  closed : ∀ e ∈ events, (t.slot e.1).socket.type = .invalid →
    ∃ id, poller = .clearing id ∧ hashId id = e.1 ∧ (t.slot e.1).id = id
  failing : ∀ i id, poller = .failing i id → (t.slot i).socket.type = .invalid

namespace Fetched

variable {t t' : SocketTable ι} {life life' : Fin maxSocket → ℕ}
  {events : List (Fin maxSocket × ℕ)} {poller poller' : RecyclePoller}

variable {e : Fin maxSocket × ℕ} {i : Fin maxSocket}

/-- Slots with an event and the slot that is to be free do not change. -/
theorem frame (h : Fetched t life events poller)
    (hslot : ∀ e ∈ events, (t'.slot e.1).socket.type = (t.slot e.1).socket.type ∧
      (t'.slot e.1).id = (t.slot e.1).id ∧ life' e.1 = life e.1)
    (hfailing : ∀ i id, poller = .failing i id → (t'.slot i).socket.type = .invalid) :
    Fetched t' life' events poller where
  nodup := h.nodup
  lives e he := (hslot e he).2.2.trans (h.lives e he)
  unreserved e he := (hslot e he).1 ▸ h.unreserved e he
  closed e he hinvalid := by
    obtain ⟨id, hpoller, hash, hid⟩ := h.closed e he ((hslot e he).1.symm.trans hinvalid)
    exact ⟨id, hpoller, hash, (hslot e he).2.1.trans hid⟩
  failing := hfailing

/-- Between two commands or events, the sockets of all events are open. -/
theorem isOpen (h : Fetched t life events .idle) (he : e ∈ events) :
    (t.slot e.1).socket.IsOpen := by
  refine ⟨fun hinvalid => ?_, h.unreserved e he⟩
  obtain ⟨id, hpoller, -⟩ := h.closed e he hinvalid
  cases hpoller

theorem of_isOpen (hnodup : (events.map Prod.fst).Nodup) (hlives : ∀ e ∈ events, life e.1 = e.2)
    (hopen : ∀ e ∈ events, (t.slot e.1).socket.IsOpen)
    (hfailing : ∀ i id, poller = .failing i id → (t.slot i).socket.type = .invalid) :
    Fetched t life events poller where
  nodup := hnodup
  lives := hlives
  unreserved e he := (hopen e he).2
  closed e he hinvalid := absurd hinvalid (hopen e he).1
  failing := hfailing

section

variable (h : Fetched t life events poller)
include h

theorem ne_of_cleared (hfree : (t.slot i).socket.type = .invalid)
    (hcleared : poller = .idle ∨ (∀ e ∈ events, e.1 ≠ i) ∧ ∀ id, poller ≠ .failing i id) :
    (∀ e ∈ events, e.1 ≠ i) ∧ ∀ id, poller ≠ .failing i id := by
  rcases hcleared with rfl | hcleared
  · refine ⟨fun e he heq => ?_, fun id hid => by cases hid⟩
    exact (h.isOpen he).1 (heq ▸ hfree)
  · exact hcleared

/-- A slot that the socket thread is done with is reserved. -/
theorem swap {n : ℕ} (hfree : (t.slot i).socket.type = .invalid)
    (hcleared : poller = .idle ∨ (∀ e ∈ events, e.1 ≠ i) ∧ ∀ id, poller ≠ .failing i id) :
    Fetched (t.setType i .reserve) (update life i n) events poller := by
  obtain ⟨hevents, hpoller⟩ := h.ne_of_cleared hfree hcleared
  have hother : ∀ j, j ≠ i → (t.setType i .reserve).slot j = t.slot j :=
    fun j hj => put_slot_of_ne hj _
  refine h.frame (fun e he => ?_) fun j id hj => ?_
  · rw [hother e.1 (hevents e he), update_of_ne (hevents e he)]
    exact ⟨rfl, rfl, rfl⟩
  · have hne : j ≠ i := fun heq => hpoller id (heq ▸ hj)
    rw [hother j hne]
    exact h.failing j id hj

/-- The id is stored in a slot that is reserved. -/
theorem store {id : ℕ} (hreserve : (t.slot (hashId id)).socket.type = .reserve) :
    Fetched (t.nameSlot id) life events poller := by
  refine h.frame (fun e he => ⟨nameSlot_type t id e.1, ?_, rfl⟩) fun i id' hi => ?_
  · have hne : e.1 ≠ hashId id := fun heq => h.unreserved e he (heq ▸ hreserve)
    rw [nameSlot_slot_of_ne hne]
  · rw [nameSlot_type]
    exact h.failing i id' hi

end

/-- A request that opens a socket is executed. -/
theorem opened (h : Fetched t life events .idle) (hreserve : (t.slot i).socket.type = .reserve)
    (hother : ∀ j, j ≠ i → t'.slot j = t.slot j)
    (hfailing : ∀ j id, poller' = .failing j id → (t'.slot j).socket.type = .invalid) :
    Fetched t' life events poller' := by
  refine of_isOpen h.nodup h.lives (fun e he => ?_) hfailing
  rw [hother e.1 fun heq => h.unreserved e he (heq ▸ hreserve)]
  exact h.isOpen he

/-- A request for an open socket is executed. -/
theorem command (h : Fetched t life events .idle) {id : ℕ} {c : CommandEnd}
    (hchange : SocketTable.Change t (hashId id) t') (hend : SocketTable.EndsWell t id t' c) :
    Fetched t' life events (ended c) where
  nodup := h.nodup
  lives := h.lives
  unreserved e he hreserve :=
    h.unreserved e he ((Requests.reserve_iff_of_drifts (drifts_of_change hchange) e.1).mp hreserve)
  closed e he hinvalid := by
    have hopen := h.isOpen he
    by_cases hi : e.1 = hashId id
    · -- the socket was closed by this command
      rw [hi] at hinvalid hopen
      obtain ⟨hc, hnamed⟩ := (hend.freed hinvalid).resolve_left hopen.1
      refine ⟨id, by rw [hc, ended], hi.symm, ?_⟩
      rw [hi, (drifts_of_change hchange (hashId id)).1]
      exact hnamed.2
    · rw [change_slot_of_ne hchange hi] at hinvalid
      exact absurd hinvalid hopen.1
  failing i id' hi := by
    rcases hend.result with rfl | rfl <;> cases hi

theorem failed {id : Option ℕ} (h : Fetched t life events (.failing i id)) :
    Fetched (t.setType i .invalid) life events (stored id) := by
  have hopen : ∀ e ∈ events, (t.slot e.1).socket.IsOpen := by
    intro e he
    refine ⟨fun hinvalid => ?_, h.unreserved e he⟩
    obtain ⟨id', hpoller, -⟩ := h.closed e he hinvalid
    cases hpoller
  refine of_isOpen h.nodup h.lives (fun e he => ?_) fun j id' hj => ?_
  · have hne : e.1 ≠ i := fun heq => (hopen e he).1 (heq ▸ h.failing i id rfl)
    rw [setType, put_slot_of_ne hne]
    exact hopen e he
  · cases id <;> cases hj

/-- `clear_closed_event`. -/
theorem clear {id : ℕ} (h : Fetched t life events (.clearing id)) {p : Fin maxSocket × ℕ → Bool}
    (hp : ∀ e, p e = true ↔ (t.slot e.1).socket.type = .invalid ∧ (t.slot e.1).id = id) :
    Fetched t life (events.eraseP p) .idle := by
  have hsub := eraseP_sublist (p := p) (l := events)
  refine of_isOpen (h.nodup.sublist (hsub.map _)) (fun e he => h.lives e (hsub.subset he))
    (fun e he => ⟨fun hinvalid => ?_, h.unreserved e (hsub.subset he)⟩) fun i id' hi => by cases hi
  have hslot : ∀ x ∈ events, (t.slot x.1).socket.type = .invalid →
      x.1 = hashId id ∧ (t.slot x.1).id = id := by
    intro x hx hinvalid
    obtain ⟨id', hpoller, hash, hid⟩ := h.closed x hx hinvalid
    cases hpoller
    exact ⟨hash.symm, hid⟩
  -- the event that is cleared is that of the same slot, and there is only one
  obtain ⟨hash, hid⟩ := hslot e (hsub.subset he) hinvalid
  obtain ⟨x, l, r, -, hx, hevents, herase⟩ :=
    exists_of_eraseP (hsub.subset he) ((hp e).mpr ⟨hinvalid, hid⟩)
  have hxe : x.1 = e.1 :=
    (hslot x (hevents ▸ mem_append_right _ mem_cons_self) ((hp x).mp hx).1).1.trans hash.symm
  have hnodup := h.nodup
  rw [hevents, (perm_middle.map Prod.fst).nodup_iff] at hnodup
  rw [herase] at he
  exact (nodup_cons.mp hnodup).1 (hxe ▸ mem_map_of_mem he)

theorem wait (h : t.Wf) {fds : List Fd} (hnodup : fds.Nodup) :
    Fetched t life ((fds.filterMap t.poll).map fun i => (i, life i)) .idle := by
  refine of_isOpen ?_ (fun e he => ?_) (fun e he => ?_) fun i id hi => by cases hi
  · rw [map_map]
    have hslots : (fds.filterMap t.poll).Nodup := by
      refine List.Nodup.filterMap (fun a b i ha hb => ?_) hnodup
      have hfd := ((h.polled a i).mp ha).1
      rw [((h.polled b i).mp hb).1] at hfd
      exact (Option.some_inj.mp hfd).symm
    simpa [Function.comp_def] using hslots
  · obtain ⟨i, -, rfl⟩ := mem_map.mp he
    rfl
  · obtain ⟨i, hi, rfl⟩ := mem_map.mp he
    obtain ⟨fd, -, hpoll⟩ := mem_filterMap.mp hi
    exact Socket.isOpen_of_registered ((h.polled fd i).mp hpoll).2

theorem event (h : Fetched t life (e :: events) .idle) (hchange : SocketTable.Change t e.1 t') :
    Fetched t' life events .idle := by
  obtain ⟨hne, hnodup⟩ := nodup_cons.mp h.nodup
  refine of_isOpen hnodup (fun x hx => h.lives x (.tail e hx)) (fun x hx => ?_) fun i id hi => by
    cases hi
  rw [change_slot_of_ne hchange fun heq => hne (heq ▸ mem_map_of_mem hx)]
  exact h.isOpen (.tail e hx)

/-- A socket is accepted in a slot that was free. -/
theorem accepted (h : Fetched t life (e :: events) .idle)
    (hfree : (t.slot i).socket.type = .invalid)
    (hother : ∀ j, j ≠ i → t'.slot j = t.slot j ∧ life' j = life j) :
    Fetched t' life' events .idle := by
  have hne : ∀ x ∈ events, x.1 ≠ i := fun x hx heq => (h.isOpen (.tail e hx)).1 (heq ▸ hfree)
  refine of_isOpen (nodup_cons.mp h.nodup).2 (fun x hx => ?_) (fun x hx => ?_)
    fun j id hj => by cases hj
  · rw [(hother x.1 (hne x hx)).2]
    exact h.lives x (.tail e hx)
  · rw [(hother x.1 (hne x hx)).1]
    exact h.isOpen (.tail e hx)

end Fetched

end SocketRecycle

end Uboss.Core
