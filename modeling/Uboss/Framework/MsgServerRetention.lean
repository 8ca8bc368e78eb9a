import Uboss.Framework.MsgServerCache

/-!
# How long a response stays in the cache

`p[4]` is the age of a response: the value of `u.index` when it was completed or sent again last.
When the index is twice `expired_number`, the responses of the older half are given up and the
others are shifted. Beside the user, a history keeps the order of the completions and resends, and
the entries whose session was used again on the same connection.
-/

namespace Uboss.Framework

open Math List Option Nat Finset MsgUser

/-- A user and what has happened to its responses, the latest first. -/
structure MsgHistory (ν : Type*) where
  user : MsgUser ν
  /-- The entry of each completion and resend. -/
  sends : List ℕ
  /-- The entries that were taken out because their session was used again. -/
  reused : List ℕ

namespace MsgUser

variable {ν : Type*} {t v : MsgUser ν} {n i : ℕ} {sends reused : List ℕ}

/-- The response is in the cache, and its request is complete. -/
def Completed (t : MsgUser ν) (i : ℕ) : Prop := t.Cached i ∧ (t.entry i).fd = none

instance : DecidablePred t.Completed := fun _ => inferInstanceAs (Decidable (_ ∧ _))

/-- The ages of the responses, and what they say about the order of the sends. -/
structure Ages (t : MsgUser ν) (n : ℕ) (sends reused : List ℕ) : Prop where
  age_lt : ∀ i, t.Completed i → (t.entry i).index < t.index
  age_inj : ∀ i j, t.Completed i → t.Completed j → (t.entry i).index = (t.entry j).index → i = j
  sent : ∀ i ∈ sends, i < t.entryN ∧ (t.entry i).fd = none ∧ (t.entry i).response ≠ none
  /-- After a send there were at least as many other ones as the age has fallen behind. -/
  recent : ∀ k i : ℕ, sends[k]? = some i → t.Cached i → t.index ≤ (t.entry i).index + k + 1
  kept : ∀ i ∈ sends.take n, t.Cached i ∨ i ∈ reused
  running : ∀ i, t.running i = true → (t.entry i).fd ≠ none ∧ (t.Cached i ∨ i ∈ reused)

/-! ### The pass of `retire_response` -/

section Retire

variable (hold : n * 2 ≤ t.index)

include hold

theorem response_retire (s : ℕ) : (t.retire n).response s =
    (t.response s).filter fun i => ¬ IsRetired n (t.entry i) := by
  unfold retire
  rw [if_neg (Nat.not_lt.mpr hold)]

theorem cached_retire_iff : (t.retire n).Cached i ↔ t.Cached i ∧ ¬ IsRetired n (t.entry i) := by
  unfold Cached
  rw [retire_same.1.entry_session, response_retire hold, filter_eq_some_iff, decide_eq_true_eq]

theorem index_entry_retire (hcompleted : (t.retire n).Completed i) :
    ((t.retire n).entry i).index = (t.entry i).index - n := by
  obtain ⟨hcached, hfd⟩ := hcompleted
  have hfd' : (t.entry i).fd = none := (retire_same.2.1 i).symm.trans hfd
  unfold Cached at hcached
  rw [retire_same.1.entry_session, response_retire hold] at hcached
  unfold retire
  rw [if_neg (Nat.not_lt.mpr hold)]
  dsimp only
  rw [if_pos ⟨hfd', hcached⟩]

theorem index_retire : (t.retire n).index = t.sessions.sup (t.youngIndex n) + 1 := by
  unfold retire
  rw [if_neg (Nat.not_lt.mpr hold)]

end Retire

/-- What is complete after the pass was complete, and in the younger half. -/
theorem completed_of_retire (hold : n * 2 ≤ t.index) (h : (t.retire n).Completed i) :
    t.Completed i ∧ n ≤ (t.entry i).index := by
  obtain ⟨hcached, hyoung⟩ := (cached_retire_iff hold).mp h.1
  have hfd : (t.entry i).fd = none := (retire_same.2.1 i).symm.trans h.2
  exact ⟨⟨hcached, hfd⟩, not_lt.mp fun hlt => hyoung ⟨hfd, hlt⟩⟩

theorem youngIndex_of_completed (h : t.Completed i) :
    t.youngIndex n (t.entry i).session = (t.entry i).index - n := by
  have hcached : t.response (t.entry i).session = some i := h.1
  unfold youngIndex
  rw [hcached]
  exact if_pos h.2

theorem index_retire_le (hn : 1 ≤ n) (hcache : t.Cache) (hold : t.index = 2 * n)
    (hlt : ∀ i, t.Completed i → (t.entry i).index < t.index) : (t.retire n).index ≤ n := by
  rw [index_retire (by omega)]
  have hsup : t.sessions.sup (t.youngIndex n) ≤ n - 1 := by
    apply Finset.sup_le
    intro s hs
    obtain ⟨i, hi⟩ := isSome_iff_exists.mp ((hcache.sessions s).mp hs)
    unfold youngIndex
    rw [hi]
    dsimp only
    split_ifs with hfd
    · have hcached : t.Cached i := by
        rw [Cached, (hcache.cached s i hi).2, hi]
      have := hlt i ⟨hcached, hfd⟩
      omega
    · exact Nat.zero_le _
  omega

theorem Ages.retire (hn : 1 ≤ n) (hcache : t.Cache) (h : t.Ages n sends reused)
    (hle : t.index ≤ 2 * n) :
    (t.retire n).Ages n sends reused ∧ (t.retire n).index < 2 * n := by
  by_cases hyoung : t.index < n * 2
  · have hsame : t.retire n = t := if_pos hyoung
    rw [hsame]
    exact ⟨h, by omega⟩
  have hold : n * 2 ≤ t.index := not_lt.mp hyoung
  have hindex : t.index = 2 * n := by omega
  have hle' := index_retire_le hn hcache hindex h.age_lt
  refine ⟨⟨fun i hi => ?_, fun i j hi hj heq => ?_, fun i hi => ?_, fun k i hk hi => ?_,
    fun i hi => ?_, fun i hi => ?_⟩, by omega⟩
  · rw [index_entry_retire hold hi, index_retire hold]
    obtain ⟨hcompleted, -⟩ := completed_of_retire hold hi
    have hmem : (t.entry i).session ∈ t.sessions := by
      have hcached : t.response (t.entry i).session = some i := hcompleted.1
      rw [hcache.sessions, hcached]
      rfl
    have hsup := le_sup (f := t.youngIndex n) hmem
    rw [youngIndex_of_completed hcompleted] at hsup
    omega
  · rw [index_entry_retire hold hi, index_entry_retire hold hj] at heq
    obtain ⟨hi', hni⟩ := completed_of_retire hold hi
    obtain ⟨hj', hnj⟩ := completed_of_retire hold hj
    exact h.age_inj i j hi' hj' (by omega)
  · rw [retire_same.1.entryN, retire_same.2.1, retire_same.1.entry_response]
    exact h.sent i hi
  · have hcompleted : (t.retire n).Completed i := by
      refine ⟨hi, ?_⟩
      rw [retire_same.2.1]
      exact (h.sent i (mem_of_getElem? hk)).2.1
    obtain ⟨hwas, hni⟩ := completed_of_retire hold hcompleted
    have := h.recent k i hk hwas.1
    rw [index_entry_retire hold hcompleted]
    omega
  · rcases h.kept i hi with hcached | hreused
    · -- the age is at least the number of later sends
      obtain ⟨k, hk⟩ := mem_iff_getElem?.mp hi
      rw [getElem?_take] at hk
      split_ifs at hk with hkn
      have := h.recent k i hk hcached
      refine .inl ((cached_retire_iff hold).mpr ⟨hcached, fun hretired => ?_⟩)
      have := hretired.2
      omega
    · exact .inr hreused
  · rw [retire_same.1.running] at hi
    obtain ⟨hfd, hcached⟩ := h.running i hi
    rw [retire_same.2.1]
    refine ⟨hfd, hcached.imp_left fun hcached => ?_⟩
    exact (cached_retire_iff hold).mpr ⟨hcached, fun hretired => hfd hretired.1⟩

/-! ### Completions and resends -/

theorem Ages.send {p : ResponseEntry ν} (h : t.Ages n sends reused) (hi : i < t.entryN)
    (hkept : t.Cached i ∨ i ∈ reused)
    (hfd : p.fd = none) (hresponse : p.response ≠ none) (hindex : p.index = t.index)
    (hsession : p.session = (t.entry i).session)
    (hv_index : v.index = t.index + 1) (hv_response : v.response = t.response)
    (hv_entryN : v.entryN = t.entryN) (hv_self : v.entry i = p)
    (hv_other : ∀ j, j ≠ i → v.entry j = t.entry j)
    (hv_running : ∀ j, v.running j = true → j ≠ i ∧ t.running j = true) :
    v.Ages n (i :: sends) reused := by
  have hcached (j : ℕ) : v.Cached j ↔ t.Cached j := by
    unfold Cached
    rw [hv_response]
    by_cases hji : j = i
    · rw [hji, hv_self, hsession]
    · rw [hv_other j hji]
  have hcompleted (j : ℕ) (hji : j ≠ i) : v.Completed j ↔ t.Completed j := by
    unfold Completed
    rw [hcached, hv_other j hji]
  have hlt (j : ℕ) (hji : j ≠ i) (hj : v.Completed j) : (v.entry j).index < t.index := by
    rw [hv_other j hji]
    exact h.age_lt j ((hcompleted j hji).mp hj)
  have hself : (v.entry i).index = t.index := by rw [hv_self, hindex]
  refine ⟨fun j hj => ?_, fun j k hj hk heq => ?_, fun j hj => ?_, fun k j hk hj => ?_,
    fun j hj => ?_, fun j hj => ?_⟩
  · by_cases hji : j = i
    · rw [hji, hself, hv_index]
      exact lt_succ_self _
    · have := hlt j hji hj
      omega
  · by_cases hji : j = i <;> by_cases hki : k = i
    · rw [hji, hki]
    · have := hlt k hki hk
      rw [hji, hself] at heq
      omega
    · have := hlt j hji hj
      rw [hki, hself] at heq
      omega
    · rw [hv_other j hji, hv_other k hki] at heq
      exact h.age_inj j k ((hcompleted j hji).mp hj) ((hcompleted k hki).mp hk) heq
  · rw [hv_entryN]
    by_cases hji : j = i
    · rw [hji, hv_self]
      exact ⟨hi, hfd, hresponse⟩
    · rw [hv_other j hji]
      exact h.sent j ((mem_cons.mp hj).resolve_left hji)
  · rw [hv_index]
    by_cases hji : j = i
    · rw [hji, hself]
      omega
    · cases k with
      | zero => exact absurd (some_inj.mp hk).symm hji
      | succ k =>
        have := h.recent k j hk ((hcached j).mp hj)
        rw [hv_other j hji]
        omega
  · rw [hcached]
    by_cases hji : j = i
    · rw [hji]
      exact hkept
    · cases n with
      | zero => cases hj
      | succ n =>
        rw [take_succ_cons] at hj
        have hmem := (mem_cons.mp hj).resolve_left hji
        exact h.kept j (take_subset_take_left sends (le_succ n) hmem)
  · obtain ⟨hji, hrunning⟩ := hv_running j hj
    rw [hcached, hv_other j hji]
    exact h.running j hrunning

theorem Ages.finish {u : MsgUser ν} (hn : 1 ≤ n) (hcache : u.Cache) (h : t.Ages n sends reused)
    (hlt : t.index < 2 * n) (hi : i < t.entryN) (hkept : t.Cached i ∨ i ∈ reused)
    (hresponse : (u.entry i).response ≠ none) (hindex : (u.entry i).index = t.index)
    (hsession : (u.entry i).session = (t.entry i).session)
    (hu_index : u.index = t.index) (hu_response : u.response = t.response)
    (hu_entryN : u.entryN = t.entryN) (hu_other : ∀ j, j ≠ i → u.entry j = t.entry j)
    (hu_running : ∀ j, u.running j = true → j ≠ i ∧ t.running j = true) :
    (u.finish n i).Ages n (i :: sends) reused ∧ (u.finish n i).index < 2 * n := by
  unfold MsgUser.finish
  apply Ages.retire hn
  · apply Cache.setEntry
    · exact ⟨hcache.cached, hcache.sessions, hcache.running⟩
    · rfl
    · exact fun hrunning => (hcache.running i hrunning).2
  · refine h.send (p := { u.entry i with fd := none }) hi hkept rfl hresponse hindex hsession ?_
      hu_response hu_entryN setEntry_entry_self (fun j hj => ?_) hu_running
    · exact congrArg (· + 1) hu_index
    · exact (setEntry_entry_of_ne hj).trans (hu_other j hj)
  · show u.index + 1 ≤ 2 * n
    omega

/-! ### Other steps -/

section

variable (h : t.Ages n sends reused)
include h

theorem Ages.setEntry {p : ResponseEntry ν} (hnone : (t.entry i).response = none)
    (hfd : p.fd ≠ none) (hsession : p.session = (t.entry i).session) :
    (t.setEntry i p).Ages n sends reused := by
  have hcached (j : ℕ) : (t.setEntry i p).Cached j ↔ t.Cached j := by
    unfold Cached
    by_cases hji : j = i
    · rw [hji, setEntry_entry_self, hsession]
      rfl
    · rw [setEntry_entry_of_ne hji]
      rfl
  have hne (j : ℕ) (hj : (t.setEntry i p).Completed j) : j ≠ i := by
    rintro rfl
    refine hfd ?_
    have hj' := hj.2
    rwa [setEntry_entry_self] at hj'
  have hcompleted (j : ℕ) (hj : (t.setEntry i p).Completed j) : t.Completed j := by
    have hj' := hj.2
    rw [setEntry_entry_of_ne (hne j hj)] at hj'
    exact ⟨(hcached j).mp hj.1, hj'⟩
  have hsent (j : ℕ) (hj : j ∈ sends) : j ≠ i := by
    rintro rfl
    exact (h.sent j hj).2.2 hnone
  refine ⟨fun j hj => ?_, fun j k hj hk heq => ?_, fun j hj => ?_, fun k j hk hj => ?_,
    fun j hj => (h.kept j hj).imp_left (hcached j).mpr, fun j hj => ?_⟩
  · rw [setEntry_entry_of_ne (hne j hj)]
    exact h.age_lt j (hcompleted j hj)
  · rw [setEntry_entry_of_ne (hne j hj), setEntry_entry_of_ne (hne k hk)] at heq
    exact h.age_inj j k (hcompleted j hj) (hcompleted k hk) heq
  · rw [setEntry_entry_of_ne (hsent j hj)]
    exact h.sent j hj
  · rw [setEntry_entry_of_ne (hsent j (mem_of_getElem? hk))]
    exact h.recent k j hk ((hcached j).mp hj)
  · obtain ⟨hfd', hkept⟩ := h.running j hj
    refine ⟨?_, hkept.imp_left (hcached j).mpr⟩
    by_cases hji : j = i
    · rw [hji, setEntry_entry_self]
      exact hfd
    · rw [setEntry_entry_of_ne hji]
      exact hfd'

/-- Some entries leave the cache, because their sessions are used again. -/
theorem Ages.dropResponse {s : ℕ} (hcached : t.response s = some i) :
    (t.dropResponse s).Ages n sends (i :: reused) := by
  have hkeep (j : ℕ) (hj : t.Cached j) : (t.dropResponse s).Cached j ∨ j = i := by
    by_cases hs : (t.entry j).session = s
    · right
      have hj' : t.response (t.entry j).session = some j := hj
      rw [hs, hcached] at hj'
      exact (some_inj.mp hj').symm
    · left
      exact (dropResponse_response_of_ne hs).trans hj
  have hwas (j : ℕ) (hj : (t.dropResponse s).Cached j) : t.Cached j := by
    by_cases hs : (t.entry j).session = s
    · have hj' : (t.dropResponse s).response (t.entry j).session = some j := hj
      rw [hs, dropResponse_response_self] at hj'
      cases hj'
    · exact (dropResponse_response_of_ne hs).symm.trans hj
  have hrecord (j : ℕ) (hj : t.Cached j ∨ j ∈ reused) :
      (t.dropResponse s).Cached j ∨ j ∈ i :: reused := by
    rcases hj with hj | hj
    · refine (hkeep j hj).imp_right fun hji => ?_
      rw [hji]
      exact mem_cons_self
    · exact .inr (mem_cons_of_mem _ hj)
  exact ⟨fun j hj => h.age_lt j ⟨hwas j hj.1, hj.2⟩,
    fun j k hj hk => h.age_inj j k ⟨hwas j hj.1, hj.2⟩ ⟨hwas k hk.1, hk.2⟩, h.sent,
    fun k j hk hj => h.recent k j hk (hwas j hj), fun j hj => hrecord j (h.kept j hj),
    fun j hj => ⟨(h.running j hj).1, hrecord j (h.running j hj).2⟩⟩

theorem Ages.execute {fd s : ℕ} (hnone : t.response s = none) :
    (t.execute fd s).Ages n sends reused := by
  have hcached (j : ℕ) (hj : j ≠ t.entryN) : (t.execute fd s).Cached j ↔ t.Cached j := by
    unfold Cached
    rw [execute_entry_of_ne hj]
    by_cases hs : (t.entry j).session = s
    · rw [hs, execute_response_self, hnone]
      exact iff_of_false (fun heq => hj (some_inj.mp heq).symm) (some_ne_none _).symm
    · rw [execute_response_of_ne hs]
  have hne (j : ℕ) (hj : (t.execute fd s).Completed j) : j ≠ t.entryN := by
    rintro rfl
    have hj' := hj.2
    rw [execute_entry_self] at hj'
    cases hj'
  have hcompleted (j : ℕ) (hj : (t.execute fd s).Completed j) : t.Completed j := by
    have hj' := hj.2
    rw [execute_entry_of_ne (hne j hj)] at hj'
    exact ⟨(hcached j (hne j hj)).mp hj.1, hj'⟩
  have hsent (j : ℕ) (hj : j ∈ sends) : j ≠ t.entryN := (h.sent j hj).1.ne
  refine ⟨fun j hj => ?_, fun j k hj hk heq => ?_, fun j hj => ?_, fun k j hk hj => ?_,
    fun j hj => ?_, fun j hj => ?_⟩
  · rw [execute_entry_of_ne (hne j hj)]
    exact h.age_lt j (hcompleted j hj)
  · rw [execute_entry_of_ne (hne j hj), execute_entry_of_ne (hne k hk)] at heq
    exact h.age_inj j k (hcompleted j hj) (hcompleted k hk) heq
  · obtain ⟨hlt, hrest⟩ := h.sent j hj
    rw [execute_entry_of_ne hlt.ne]
    exact ⟨lt_succ_of_lt hlt, hrest⟩
  · have hj' := hsent j (mem_of_getElem? hk)
    rw [execute_entry_of_ne hj']
    exact h.recent k j hk ((hcached j hj').mp hj)
  · exact (h.kept j hj).imp_left (hcached j (hsent j (mem_of_mem_take hj))).mpr
  · by_cases hnew : j = t.entryN
    · rw [hnew, execute_entry_self]
      refine ⟨some_ne_none _, .inl ?_⟩
      unfold Cached
      rw [execute_entry_self]
      exact execute_response_self
    · rw [execute_running_of_ne hnew] at hj
      obtain ⟨hfd, hkept⟩ := h.running j hj
      rw [execute_entry_of_ne hnew]
      exact ⟨hfd, hkept.imp_left (hcached j hnew).mpr⟩

theorem Ages.stop : (t.stop i).Ages n sends reused := by
  refine ⟨h.age_lt, h.age_inj, h.sent, h.recent, h.kept, fun j hj => h.running j ?_⟩
  by_cases hji : j = i
  · rw [hji, stop_running_self] at hj
    cases hj
  · rwa [stop_running_of_ne hji] at hj

end

theorem execute_dropResponse {fd s : ℕ} (hs : s ∈ t.sessions) :
    (t.dropResponse s).execute fd s = t.execute fd s := by
  unfold MsgUser.execute MsgUser.dropResponse
  dsimp only
  rw [Function.update_idem, insert_erase hs, insert_eq_of_mem hs]

end MsgUser

namespace MsgHistory

variable {ν : Type*} [LinearOrder ν] {n : ℕ} {h h' : MsgHistory ν} {a : MsgAction ν}

/-- The history of a user that has just logged in. -/
def start (version : ν) : MsgHistory ν := ⟨.create version, [], []⟩

/-- A step of the user. -/
def step (n : ℕ) (h : MsgHistory ν) (a : MsgAction ν) : Option (MsgHistory ν) :=
  (h.user.step n a).map fun t =>
    ⟨t, (h.user.sending a).toList ++ h.sends, (h.user.reusing a).toList ++ h.reused⟩

/-- What every run keeps. -/
structure Inv (n : ℕ) (h : MsgHistory ν) : Prop where
  cache : h.user.Cache
  ages : h.user.Ages n h.sends h.reused
  index_lt : h.user.index < 2 * n

theorem Inv.step (hn : 1 ≤ n) (hinv : h.Inv n) (hstep : h.step n a = some h') : h'.Inv n := by
  obtain ⟨t, ht, rfl⟩ := map_eq_some_iff.mp hstep
  obtain ⟨hcache, hages, hlt⟩ := hinv
  have hcases := step_cases ht
  have hcache' := hcache.step hcases
  cases hcases with
  | idle version connection connectionN hsending hreusing =>
    rw [hsending, hreusing]
    exact ⟨hcache', ⟨hages.age_lt, hages.age_inj, hages.sent, hages.recent, hages.kept,
      hages.running⟩, hlt⟩
  | execute fd s hnone hsending hreusing =>
    rw [hsending, hreusing]
    exact ⟨hcache', hages.execute hnone, hlt⟩
  | reuse fd s i hcached hsending hreusing =>
    rw [hsending, hreusing]
    have hs : s ∈ h.user.sessions := by
      rw [hcache.sessions, hcached]
      rfl
    refine ⟨hcache', ?_, hlt⟩
    rw [← MsgUser.execute_dropResponse hs]
    exact (hages.dropResponse hcached).execute dropResponse_response_self
  | conflict s i hcached hsending hreusing =>
    rw [hsending, hreusing]
    exact ⟨hcache', hages.dropResponse hcached, hlt⟩
  | wait fd s i hcached hnone hsending hreusing =>
    rw [hsending, hreusing]
    exact ⟨hcache', hages.setEntry hnone (some_ne_none fd) rfl, hlt⟩
  | refresh fd s i hcached hsome hsending hreusing =>
    rw [hsending, hreusing]
    obtain ⟨hi, hs⟩ := hcache.cached s i hcached
    have hkept : h.user.Cached i := by rw [MsgUser.Cached, hs, hcached]
    have hself := @MsgUser.resend_entry_self _ h.user i fd
    -- the handler of the response has returned
    have hrunning : ∀ j, (h.user.resend fd i).running j = true →
        j ≠ i ∧ h.user.running j = true := by
      intro j hj
      refine ⟨?_, hj⟩
      rintro rfl
      exact hsome (hcache.running j hj).2
    obtain ⟨hages', hlt'⟩ := hages.finish hn (hcache.resend fd i) hlt hi (.inl hkept)
      (by rw [hself]; exact hsome) (by rw [hself]) (by rw [hself]) rfl rfl rfl
      (fun j hj => setEntry_entry_of_ne hj) hrunning
    exact ⟨hcache', hages', hlt'⟩
  | stuck i ok result ha hrunning hpack hsending hreusing =>
    rw [hsending, hreusing]
    exact ⟨hcache', hages.stop, hlt⟩
  | respond i ok result response ha hrunning hpack hsending hreusing =>
    rw [hsending, hreusing]
    have hself := @MsgUser.respond_entry_self _ (h.user.stop i) i response
    have hother : ∀ j, ((h.user.stop i).respond i response).running j = true →
        j ≠ i ∧ h.user.running j = true := by
      intro j hj
      have hji : j ≠ i := by
        rintro rfl
        cases (stop_running_self (t := h.user) (i := j)).symm.trans hj
      exact ⟨hji, (stop_running_of_ne hji).symm.trans hj⟩
    obtain ⟨hages', hlt'⟩ := hages.finish hn (hcache.respond i response) hlt
      (hcache.running i hrunning).1 (hages.running i hrunning).2
      (by rw [hself]; exact some_ne_none _) (by rw [hself]; rfl) (by rw [hself]; rfl) rfl rfl
      rfl (fun j hj => setEntry_entry_of_ne hj) hother
    exact ⟨hcache', hages', hlt'⟩

omit [LinearOrder ν] in
theorem inv_start (hn : 1 ≤ n) (version : ν) : (start version).Inv n where
  cache := cache_create version
  ages :=
    { age_lt := fun i hi => by cases hi.1
      age_inj := fun i _ hi => by cases hi.1
      sent := fun i hi => by cases hi
      recent := fun k i hk => by cases hk
      kept := fun i hi => by
        rw [start, take_nil] at hi
        cases hi
      running := fun i hi => by cases hi }
  index_lt := by
    show 0 < 2 * n
    omega

/-- The sessions whose responses are complete and in the cache. -/
def completedSessions (t : MsgUser ν) : Finset ℕ :=
  t.sessions.filter fun s => (t.response s).any fun i => t.Completed i

omit [LinearOrder ν] in
theorem card_completedSessions_le (hinv : h.Inv n) :
    (completedSessions h.user).card ≤ h.user.index := by
  have hspec : ∀ s ∈ completedSessions h.user,
      ∃ i, h.user.response s = some i ∧ h.user.Completed i := by
    intro s hs
    obtain ⟨-, hany⟩ := mem_filter.mp hs
    cases hi : h.user.response s with
    | none =>
      rw [hi] at hany
      cases hany
    | some i =>
      rw [hi] at hany
      exact ⟨i, rfl, of_decide_eq_true hany⟩
  rw [← card_range h.user.index]
  apply card_le_card_of_injOn fun s => (h.user.entry ((h.user.response s).getD 0)).index
  · intro s hs
    obtain ⟨i, hi, hcompleted⟩ := hspec s hs
    dsimp only
    rw [hi]
    exact Finset.mem_coe.mpr (Finset.mem_range.mpr (hinv.ages.age_lt i hcompleted))
  · intro s hs s' hs' heq
    obtain ⟨i, hi, hcompleted⟩ := hspec s hs
    obtain ⟨j, hj, hcompleted'⟩ := hspec s' hs'
    dsimp only at heq
    rw [hi, hj] at heq
    have hij : i = j := hinv.ages.age_inj i j hcompleted hcompleted' heq
    rw [← (hinv.cache.cached s i hi).2, ← (hinv.cache.cached s' j hj).2, hij]

/-- Two responses, and the second one is sent again on two later connections. -/
def resends : List (MsgAction ℕ) :=
  [.auth 1, .request 0 [0, 0, 0, 1], .handlerEnd 0 true [], .request 0 [0, 0, 0, 2],
    .handlerEnd 1 true [], .auth 2, .request 1 [0, 0, 0, 2], .auth 3, .request 2 [0, 0, 0, 2]]

end MsgHistory

end Uboss.Framework
