import Uboss.Core.HandleName

/-!
# Names of live services

`uboss_handle_retire` forgets the names of the handle, so that a name is free when its service is
gone. But a name can be given to any handle: by `NAME`, and by the `REG` of a service that has been
retired and is still running. In the runs where this does not happen every name is that of a live
service, however the launches, the commands and the retirements are interleaved, and also if a
launch moves a context to a wrong slot.
-/

namespace Uboss.Core

open Math HandleStorage Function Option List Nat Prod

variable {names : List HandleName} {name : List UInt8} {n : HandleName} {handle : ℕ}

/-! ### The table of the names -/

theorem mem_of_searchLoop {fuel first stop : ℕ}
    (h : searchLoop names name fuel first stop = .found n) :
    n ∈ names ∧ n.name = name := by
  induction fuel generalizing first stop with
  | zero => cases h
  | succ fuel ih =>
    rw [searchLoop] at h
    split_ifs at h
    dsimp only at h
    split at h
    · cases h
    next n' hn' =>
      split at h
      next heq =>
        obtain rfl := NameSearch.found.inj h
        exact ⟨mem_of_getElem? hn', Std.LawfulEqOrd.eq_of_compare heq⟩
      · exact ih h
      · exact ih h

theorem mem_retireNames : n ∈ retireNames handle names ↔ n ∈ names ∧ n.handle ≠ handle := by
  induction names with
  | nil => simp [retireNames]
  | cons m names ih =>
    rw [retireNames]
    split_ifs with hm
    · rw [ih, mem_cons]
      constructor
      · exact fun ⟨hn, hne⟩ => ⟨.inr hn, hne⟩
      · rintro ⟨rfl | hn, hne⟩
        · exact absurd hm hne
        · exact ⟨hn, hne⟩
    · rw [mem_cons, mem_cons, ih]
      constructor
      · rintro (rfl | ⟨hn, hne⟩)
        · exact ⟨.inl rfl, hm⟩
        · exact ⟨.inr hn, hne⟩
      · rintro ⟨rfl | hn, hne⟩
        · exact .inl rfl
        · exact .inr ⟨hn, hne⟩

/-- `uboss_handle_namehandle` changes nothing but the names, and adds at most one, which was
free. -/
theorem namehandle_cases {s s' : HandleStorage} {result : Option (List UInt8)}
    (h : ubossHandleNamehandle s handle name = some (result, s')) :
    s' = s ∨ (∃ before, s.searchName name = .missing before) ∧ s'.slot = s.slot ∧
      s'.slotSize = s.slotSize ∧ ∀ n ∈ s'.name, n = ⟨name, handle⟩ ∨ n ∈ s.name := by
  unfold ubossHandleNamehandle at h
  split at h
  · obtain ⟨-, rfl⟩ := mk.inj (some_inj.mp h)
    exact .inl rfl
  next before hsearch =>
    obtain ⟨s₁, hinsert, heq⟩ := map_eq_some_iff.mp h
    obtain ⟨-, rfl⟩ := mk.inj heq
    unfold insertNameBefore at hinsert
    dsimp only at hinsert
    split_ifs at hinsert
    all_goals
      obtain rfl := some_inj.mp hinsert
      refine .inr ⟨⟨before, hsearch⟩, rfl, rfl, fun n hn => ?_⟩
      rcases mem_append.mp hn with hn | hn
      · exact .inr (mem_of_mem_take hn)
      · exact (mem_cons.mp hn).imp_right mem_of_mem_drop

/-! ### The slots -/

section Slots

variable {s s' : HandleStorage} {handleOf : CtxId → ℕ} {handle : ℕ} {c : CtxId}

theorem grab_eq_some_iff_slot : ubossHandleGrab handleOf s handle = some c ↔
      s.slot (handle &&& (s.slotSize - 1)) = some c ∧ handleOf c = handle := by
  unfold ubossHandleGrab
  constructor
  · intro h
    split at h
    · cases h
    next d hd =>
      split_ifs at h with hhandle
      obtain rfl := some_inj.mp h
      exact ⟨hd, hhandle⟩
  · rintro ⟨hslot, hhandle⟩
    rw [hslot]
    exact if_pos hhandle

/-- Doubling moves every context to the slot of the handle that is stored in it, or fails. -/
theorem slot_of_rehash {newSlot : ℕ → Option CtxId} (hok : s.rehash handleOf = .ok newSlot)
    {i : ℕ} (hi : i < s.slotSize) (hslot : s.slot i = some c) :
    newSlot (handleOf c &&& (s.slotSize * 2 - 1)) = some c := by
  have hmoved : ∀ i < s.slotSize, ∀ c, s.slot i = some c →
      newSlot (handleOf c &&& (s.slotSize * 2 - 1)) = some c := by
    refine foldlM_range_inv (P := fun n (newSlot : ℕ → Option CtxId) => ∀ i < n, ∀ c,
      s.slot i = some c → newSlot (handleOf c &&& (s.slotSize * 2 - 1)) = some c) hok
        (fun i hi => absurd hi (Nat.not_lt_zero i)) ?_
    intro n hn slot₁ slot₂ hP hmove i hi d hd
    unfold moveSlot at hmove
    split at hmove
    · cases hmove
    next e he =>
      dsimp only at hmove
      split_ifs at hmove with hfree
      obtain rfl := Except.ok.inj hmove
      rcases Nat.lt_succ_iff_lt_or_eq.mp hi with hlt | rfl
      · -- what was moved before is not overwritten
        have hold := hP i hlt d hd
        rw [update_of_ne, hold]
        intro heq
        rw [heq, hfree] at hold
        cases hold
      · rw [he] at hd
        obtain rfl := some_inj.mp hd
        exact update_self ..
  exact hmoved i hi c hslot

theorem and_sub_one_lt {x n : ℕ} (hn : 0 < n) : x &&& (n - 1) < n :=
  lt_of_le_of_lt and_le_right (sub_lt hn Nat.one_pos)

theorem slot_of_probe (h : s.probe = some handle) :
    s.slot (handle &&& (s.slotSize - 1)) = none := by
  unfold probe at h
  obtain ⟨i, -, hfound, -⟩ := findSome?_range_eq_some_iff.mp h
  dsimp only at hfound
  split_ifs at hfound with hfree
  obtain rfl := some_inj.mp hfound
  exact hfree

/-- A registration keeps what `uboss_handle_grab` finds, and the names. -/
theorem grab_of_registerLoop {ctx : CtxId} {fuel handle' : ℕ} (hsize : 0 < s.slotSize)
    (hok : registerLoop handleOf ctx fuel s = .ok (handle', s')) :
    0 < s'.slotSize ∧ s'.name = s.name ∧ ∀ handle c, ubossHandleGrab handleOf s handle = some c →
      ubossHandleGrab handleOf s' handle = some c := by
  induction fuel generalizing s with
  | zero => cases hok
  | succ fuel ih =>
    rw [registerLoop] at hok
    split at hok
    next low hprobe =>
      obtain ⟨-, rfl⟩ := mk.inj (Except.ok.inj hok)
      refine ⟨hsize, rfl, fun handle c hgrab => ?_⟩
      rw [grab_eq_some_iff_slot] at hgrab ⊢
      refine ⟨?_, hgrab.2⟩
      have hne : handle &&& (s.slotSize - 1) ≠ low &&& (s.slotSize - 1) := by
        intro heq
        rw [heq, slot_of_probe hprobe] at hgrab
        cases hgrab.1
      exact (update_of_ne hne ..).trans hgrab.1
    next hprobe =>
      split_ifs at hok with hlimit
      split at hok
      · cases hok
      next newSlot hrehash =>
        have hsize' : 0 < (s.grow newSlot).slotSize := Nat.mul_pos hsize Nat.two_pos
        obtain ⟨hpos, hname, hkeep⟩ := ih hsize' hok
        refine ⟨hpos, hname, fun handle c hgrab => hkeep handle c ?_⟩
        rw [grab_eq_some_iff_slot] at hgrab ⊢
        obtain ⟨hslot, rfl⟩ := hgrab
        exact ⟨slot_of_rehash hrehash (and_sub_one_lt hsize) hslot, rfl⟩

/-- A retirement does nothing, or it empties the slot of the handle and forgets its names. -/
theorem retire_cases (handleOf : CtxId → ℕ) (s : HandleStorage) (handle : ℕ) :
    (ubossHandleRetire handleOf s handle).2 = s ∨ ∃ c, ubossHandleGrab handleOf s handle = some c ∧
        (ubossHandleRetire handleOf s handle).2 = s.clear (handle &&& (s.slotSize - 1)) handle := by
  unfold ubossHandleRetire
  dsimp only
  split
  · exact .inl rfl
  next c hslot =>
    split_ifs with hhandle
    · exact .inr ⟨c, grab_eq_some_iff_slot.mpr ⟨hslot, hhandle⟩, rfl⟩
    · exact .inl rfl

theorem grab_clear_of_ne {handle' : ℕ} {c' : CtxId} (hne : handle' ≠ handle)
    (hgrab : ubossHandleGrab handleOf s handle = some c)
    (hgrab' : ubossHandleGrab handleOf s handle' = some c') :
    ubossHandleGrab handleOf (s.clear (handle &&& (s.slotSize - 1)) handle) handle' = some c' := by
  rw [grab_eq_some_iff_slot] at hgrab hgrab' ⊢
  have hslot : handle' &&& (s.slotSize - 1) ≠ handle &&& (s.slotSize - 1) := by
    intro heq
    rw [heq, hgrab.1] at hgrab'
    obtain rfl := some_inj.mp hgrab'.1
    exact hne (hgrab'.2.symm.trans hgrab.2)
  exact ⟨(update_of_ne hslot ..).trans hgrab'.1, hgrab'.2⟩

end Slots

namespace NameNode

variable {Tid : Type} {st st' : NameNode Tid}

/-- Every name is bound to a handle that is registered. -/
def NamesLive (st : NameNode Tid) : Prop := ∀ n ∈ st.storage.name, ∃ c, st.grab n.handle = some c

/-- A name that has no entry with a registered handle can be given again. -/
def FreeWithoutService (st : NameNode Tid) : Prop :=
  ∀ name, (∀ n ∈ st.storage.name, n.name = name → st.grab n.handle = none) →
    ∃ before, st.storage.searchName name = .missing before

theorem NamesLive.freeWithoutService (h : st.NamesLive) : st.FreeWithoutService := by
  intro name hgone
  cases hsearch : st.storage.searchName name with
  | missing before => exact ⟨before, rfl⟩
  | found n =>
    obtain ⟨hn, hname⟩ := mem_of_searchLoop hsearch
    obtain ⟨c, hc⟩ := h n hn
    rw [hgone n hn hname] at hc
    cases hc

/-- The handle is that of a service which has been launched and is registered. -/
def Settled (st : NameNode Tid) (handle : ℕ) : Prop :=
  ∃ c, st.grab handle = some c ∧ st.launched c = true

/-- The invariant. A context that is being launched is new, and it is launched by one thread. -/
structure Inv (st : NameNode Tid) : Prop where
  size_pos : 0 < st.storage.slotSize
  lt_next : ∀ c, st.launched c = true → c < st.next
  launching : ∀ t c handle, st.thread t = .launching c handle →
    c < st.next ∧ st.launched c = false
  unique : ∀ t t' c handle handle', st.thread t = .launching c handle →
    st.thread t' = .launching c handle' → t = t'
  names : ∀ n ∈ st.storage.name, st.Settled n.handle

theorem inv_init (harbor : ℕ) : (init Tid harbor).Inv where
  size_pos := succ_pos 3
  lt_next c hc := by cases hc
  launching t c handle ht := by cases ht
  unique t t' c handle handle' ht := by cases ht
  names n hn := by cases hn

/-- A step that names live services only: a name that is free is given to the handle of a service
that is registered. -/
def NamesOnlyLive (st : NameNode Tid) (a : NameAct Tid) : Prop :=
  ∀ handle name, st.naming a = some (handle, name) →
    (∃ before, st.storage.searchName name = .missing before) → st.Settled handle

theorem Inv.nameHandle (hst : st.Inv) {handle : ℕ} {name : List UInt8}
    (hlive : (∃ before, st.storage.searchName name = .missing before) → st.Settled handle)
    (h : st.nameHandle handle name = some st') : st'.Inv := by
  obtain ⟨⟨result, storage⟩, hname, rfl⟩ := map_eq_some_iff.mp h
  rcases namehandle_cases hname with rfl | ⟨hmissing, hslot, hsize, hnames⟩
  · exact hst
  · have hsettled : ∀ handle, st.Settled handle →
        Settled { st with storage := storage } handle := by
      rintro handle ⟨c, hgrab, hc⟩
      refine ⟨c, ?_, hc⟩
      rw [grab, grab_eq_some_iff_slot] at hgrab ⊢
      rwa [hslot, hsize]
    refine ⟨hsize ▸ hst.size_pos, hst.lt_next, hst.launching, hst.unique, fun n hn => ?_⟩
    rcases hnames n hn with rfl | hold
    · exact hsettled handle (hlive hmissing)
    · exact hsettled n.handle (hst.names n hold)

theorem Inv.retireHandle (hst : st.Inv) (handle : ℕ) : (st.retireHandle handle).Inv := by
  rcases retire_cases st.handleOf st.storage handle with heq | ⟨c, hgrab, heq⟩
  · rw [NameNode.retireHandle, heq]
    exact hst
  · rw [NameNode.retireHandle, heq]
    refine ⟨hst.size_pos, hst.lt_next, hst.launching, hst.unique, fun n hn => ?_⟩
    obtain ⟨hn, hne⟩ := mem_retireNames.mp hn
    obtain ⟨c', hgrab', hc'⟩ := hst.names n hn
    exact ⟨c', grab_clear_of_ne hne hgrab hgrab', hc'⟩

variable [DecidableEq Tid]

theorem Inv.setThread (hst : st.Inv) {t : Tid} {p : NameThread}
    (hp : ∀ c handle, p ≠ .launching c handle) : (st.setThread t p).Inv := by
  have hthread : ∀ {t' c handle}, (st.setThread t p).thread t' = .launching c handle →
      st.thread t' = .launching c handle := by
    intro t' c handle ht'
    by_cases htt : t' = t
    · subst htt
      exact absurd ((update_self ..).symm.trans ht') (hp c handle)
    · exact (update_of_ne htt ..).symm.trans ht'
  refine ⟨hst.size_pos, hst.lt_next, fun t' c handle ht' => hst.launching t' c handle (hthread ht'),
    fun t₁ t₂ c h₁ h₂ ht₁ ht₂ => hst.unique t₁ t₂ c h₁ h₂ (hthread ht₁) (hthread ht₂), hst.names⟩

theorem Inv.launch (hst : st.Inv) {t : Tid} {handle : ℕ} {storage : HandleStorage}
    (hok : ubossHandleRegister (update st.handleOf st.next 0) st.storage st.next =
      .ok (handle, storage)) :
    Inv { st with
      storage := storage
      handleOf := update st.handleOf st.next 0
      next := st.next + 1
      thread := update st.thread t (.launching st.next handle) } := by
  obtain ⟨hsize, hname, hkeep⟩ := grab_of_registerLoop hst.size_pos hok
  have hthread : ∀ {t' c h}, update st.thread t (.launching st.next handle) t' = .launching c h →
        (t' = t ∧ c = st.next) ∨ (t' ≠ t ∧ st.thread t' = .launching c h) := by
    intro t' c h ht'
    by_cases htt : t' = t
    · rw [htt, update_self] at ht'
      exact .inl ⟨htt, (NameThread.launching.inj ht').1.symm⟩
    · rw [update_of_ne htt] at ht'
      exact .inr ⟨htt, ht'⟩
  refine ⟨hsize, fun c hc => (hst.lt_next c hc).trans (lt_succ_self _), ?_, ?_, fun n hn => ?_⟩
  · intro t' c h ht'
    rcases hthread ht' with ⟨-, rfl⟩ | ⟨-, hold⟩
    · refine ⟨lt_succ_self _, Bool.eq_false_iff.mpr fun hlaunched => ?_⟩
      exact absurd (hst.lt_next _ hlaunched) (lt_irrefl _)
    · obtain ⟨hlt, hlaunched⟩ := hst.launching t' c h hold
      exact ⟨hlt.trans (lt_succ_self _), hlaunched⟩
  · intro t₁ t₂ c h₁ h₂ ht₁ ht₂
    rcases hthread ht₁ with ⟨rfl, rfl⟩ | ⟨-, hold₁⟩ <;>
      rcases hthread ht₂ with ⟨rfl, hc⟩ | ⟨-, hold₂⟩
    · rfl
    · exact absurd (hst.launching t₂ _ h₂ hold₂).1 (lt_irrefl _)
    · subst hc
      exact absurd (hst.launching t₁ _ h₁ hold₁).1 (lt_irrefl _)
    · exact hst.unique t₁ t₂ c h₁ h₂ hold₁ hold₂
  · dsimp only at hn
    rw [hname] at hn
    obtain ⟨c, hgrab, hc⟩ := hst.names n hn
    refine ⟨c, hkeep n.handle c ?_, hc⟩
    rw [grab, grab_eq_some_iff_slot] at hgrab
    rw [grab_eq_some_iff_slot, update_of_ne (hst.lt_next c hc).ne]
    exact hgrab

theorem Inv.store (hst : st.Inv) {t : Tid} {c : CtxId} {handle : ℕ}
    (ht : st.thread t = .launching c handle) :
    Inv { st with
      handleOf := update st.handleOf c handle
      launched := update st.launched c true
      thread := update st.thread t .idle } := by
  obtain ⟨hlt, hnew⟩ := hst.launching t c handle ht
  have hthread : ∀ {t' d h}, update st.thread t .idle t' = .launching d h →
      t' ≠ t ∧ st.thread t' = .launching d h := by
    intro t' d h ht'
    by_cases htt : t' = t
    · rw [htt, update_self] at ht'
      cases ht'
    · rw [update_of_ne htt] at ht'
      exact ⟨htt, ht'⟩
  refine ⟨hst.size_pos, fun d hd => ?_, ?_, ?_, fun n hn => ?_⟩
  · by_cases hdc : d = c
    · rwa [hdc]
    · exact hst.lt_next d ((update_of_ne hdc ..).symm.trans hd)
  · intro t' d h ht'
    obtain ⟨htt, hold⟩ := hthread ht'
    have hdc : d ≠ c := by
      rintro rfl
      exact htt (hst.unique t' t d h handle hold ht)
    obtain ⟨hltd, hnewd⟩ := hst.launching t' d h hold
    exact ⟨hltd, (update_of_ne hdc ..).trans hnewd⟩
  · intro t₁ t₂ d h₁ h₂ ht₁ ht₂
    exact hst.unique t₁ t₂ d h₁ h₂ (hthread ht₁).2 (hthread ht₂).2
  · obtain ⟨d, hgrab, hd⟩ := hst.names n hn
    have hdc : d ≠ c := by
      rintro rfl
      rw [hnew] at hd
      cases hd
    refine ⟨d, ?_, (update_of_ne hdc ..).trans hd⟩
    rw [grab, grab_eq_some_iff_slot] at hgrab ⊢
    exact ⟨hgrab.1, (update_of_ne hdc ..).trans hgrab.2⟩

theorem Inv.step {a : NameAct Tid} (hst : st.Inv) (hlive : st.NamesOnlyLive a)
    (hstep : st.step a = some st') : st'.Inv := by
  cases a with
  | launch t =>
    rw [NameNode.step] at hstep
    split at hstep
    next hok =>
      obtain rfl := some_inj.mp hstep
      exact hst.launch hok
    · cases hstep
  | store t =>
    rw [NameNode.step] at hstep
    split at hstep
    next ht =>
      obtain rfl := some_inj.mp hstep
      exact hst.store ht
    · cases hstep
  | reg t c param =>
    rw [NameNode.step] at hstep
    split_ifs at hstep
    split at hstep
    next handle name hreg => exact hst.nameHandle (hlive handle name hreg) hstep
    · obtain rfl := some_inj.mp hstep
      exact hst
  | name t param =>
    rw [NameNode.step] at hstep
    split_ifs at hstep
    split at hstep
    · cases hstep
    · obtain rfl := some_inj.mp hstep
      exact hst
    next handle name hname =>
      refine hst.nameHandle (hlive handle name ?_) hstep
      rw [naming, hname]
  | exit t c =>
    rw [NameNode.step] at hstep
    split_ifs at hstep
    obtain rfl := some_inj.mp hstep
    exact hst.setThread fun _ _ => nofun
  | kill t param =>
    rw [NameNode.step] at hstep
    split_ifs at hstep
    · obtain rfl := some_inj.mp hstep
      exact hst
    · obtain rfl := some_inj.mp hstep
      exact hst.setThread fun _ _ => nofun
  | abort t =>
    rw [NameNode.step] at hstep
    split_ifs at hstep
    obtain rfl := some_inj.mp hstep
    exact hst.setThread fun _ _ => nofun
  | retire t =>
    rw [NameNode.step] at hstep
    split at hstep
    next handle ht =>
      obtain rfl := some_inj.mp hstep
      exact (hst.retireHandle handle).setThread fun _ _ => nofun
    · cases hstep
  | scan t =>
    rw [NameNode.step] at hstep
    split at hstep
    · split_ifs at hstep
      all_goals
        obtain rfl := some_inj.mp hstep
        exact hst.setThread fun _ _ => nofun
    · cases hstep
  | sweep t =>
    rw [NameNode.step] at hstep
    split at hstep
    next i n handle ht =>
      obtain rfl := some_inj.mp hstep
      exact (hst.retireHandle handle).setThread fun _ _ => nofun
    · cases hstep

/-- In every run in which only live services are named, every name is bound to a handle that is
registered, and a name without a registered service is free. -/
theorem namesLive_of_run (harbor : ℕ) (w : List (NameAct Tid)) (st : NameNode Tid)
    (hrun : Run step NamesOnlyLive (init Tid harbor) w st) :
    st.NamesLive ∧ st.FreeWithoutService := by
  have hst : st.Inv := hrun.invariant (inv_init harbor) fun hlive hstep h => h.step hlive hstep
  have hlive : st.NamesLive := by
    intro n hn
    obtain ⟨c, hgrab, -⟩ := hst.names n hn
    exact ⟨c, hgrab⟩
  exact ⟨hlive, hlive.freeWithoutService⟩

/-- The text `.x`. -/
def dotX : List UInt8 := ['.'.toUInt8, 'x'.toUInt8]

/-- A service names itself. -/
theorem namesLive_of_run_reg :
    ∃ st, Run step NamesOnlyLive (init ℕ 1) [.launch 0, .store 0, .reg 0 0 dotX] st ∧
      st.storage.name = [⟨['x'.toUInt8], 0x01000001⟩] ∧ st.NamesLive := by
  obtain ⟨st₁, hst₁⟩ : ∃ st, exec step (init ℕ 1) [.launch 0, .store 0] = some st := ⟨_, rfl⟩
  have hstate : (exec step (init ℕ 1) [.launch 0, .store 0]).map
      (fun st => (st.grab 0x01000001, st.handleOf 0, st.launched 0)) =
        some (some 0, 0x01000001, true) := by decide
  rw [hst₁, Option.map_some, Option.some_inj, Prod.mk.injEq, Prod.mk.injEq] at hstate
  obtain ⟨hgrab, hhandle, hlaunched⟩ := hstate
  have hrun₁ : Run step NamesOnlyLive (init ℕ 1) [.launch 0, .store 0] st₁ := by
    obtain rfl := Option.some_inj.mp hst₁
    have hquiet (st : NameNode ℕ) (a : NameAct ℕ) (ha : st.naming a = none) :
        NamesOnlyLive st a := by
      intro handle name hnaming
      rw [ha] at hnaming
      cases hnaming
    exact ((Run.nil _).snoc (hquiet _ (NameAct.launch 0) rfl) rfl).snoc
      (hquiet _ (NameAct.store 0) rfl) rfl
  have hlive : NamesOnlyLive st₁ (.reg 0 0 dotX) := by
    rintro handle name hreg -
    obtain ⟨rfl, rfl⟩ := Prod.mk.inj (Option.some_inj.mp hreg)
    rw [hhandle]
    exact ⟨0, hgrab, hlaunched⟩
  have hnames : ((exec step (init ℕ 1) [.launch 0, .store 0]).bind
      (step · (.reg 0 0 dotX))).map (fun st => st.storage.name) =
        some [⟨['x'.toUInt8], 0x01000001⟩] := by decide
  rw [hst₁, Option.bind_some] at hnames
  obtain ⟨st₂, hstep, hnames⟩ := Option.map_eq_some_iff.mp hnames
  have hrun := hrun₁.snoc hlive hstep
  exact ⟨st₂, hrun, hnames, (namesLive_of_run 1 _ st₂ hrun).1⟩

/-- A service names itself after it has been retired. -/
theorem retired_named : ¬ ∀ (st : NameNode ℕ), Reachable step (init ℕ 1) st → st.NamesLive := by
  intro hall
  have hexec : (exec step (init ℕ 1) [.launch 0, .store 0, .exit 0 0, .retire 0, .reg 0 0 dotX]).map
        (fun st => (st.storage.name, st.grab 0x01000001)) =
          some ([⟨['x'.toUInt8], 0x01000001⟩], none) := by decide
  obtain ⟨st, hst, hstate⟩ := Option.map_eq_some_iff.mp hexec
  obtain ⟨hnames, hgrab⟩ := Prod.mk.inj hstate
  obtain ⟨c, hc⟩ := hall st (reachable_of_exec hst) _ (hnames ▸ List.mem_cons_self)
  rw [hgrab] at hc
  cases hc

end NameNode

end Uboss.Core
