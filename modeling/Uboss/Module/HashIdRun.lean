import Uboss.Math.PartialMap
import Uboss.Module.HashIdInsert

/-!
# The table of the ids along a run

The functions of `hashid.h` are called in any order. An id is inserted if the table is not full and
does not have it. What the last insertion of an id has returned is recorded, until the id is
removed.
-/

namespace Uboss.Module

open Math Option List Int32 Function Finset

namespace HashId

variable {max hashcap hashcap' : Int32} {rounds : ℕ} {hi : HashId}

/-! ### A new table -/

theorem le_of_initLoop (h : initLoop max rounds hashcap = some hashcap') : max ≤ hashcap' := by
  induction rounds generalizing hashcap with
  | zero => cases h
  | succ rounds ih =>
    unfold initLoop at h
    split_ifs at h with hlt
    · exact ih h
    · obtain rfl := some.inj h
      exact Int32.not_lt.mp hlt

theorem Valid.of_init (hmax : 1 ≤ max) (h : init rounds max = some hi) :
    hi.Valid (fun _ => []) ∧ hi.cap = max ∧ ∀ c, ¬ hi.Used c := by
  obtain ⟨hashcap, hloop, rfl⟩ := map_eq_some_iff.mp h
  have hone := le_iff_toInt_le.mp hmax
  have hle := le_iff_toInt_le.mp (le_of_initLoop hloop)
  have hlt := hashcap.toInt_lt
  rw [toInt_one] at hone
  have hunused : ∀ {hashmod c}, ¬ (⟨hashmod, max, 0, fun _ => ⟨-1, none⟩, fun _ => none⟩ :
      HashId).Used c := fun hused => hused.2 rfl
  refine ⟨⟨?_, ?_, fun b => rfl, fun b => nodup_nil, ?_, fun c _ => rfl, ?_, ?_⟩, rfl,
    fun c => hunused⟩
  · show 0 ≤ hashcap - 1
    rw [le_iff_toInt_le, toInt_sub, toInt_one, toInt_zero, Int.bmod_eq_of_le_mul_two]
    all_goals omega
  · show 0 < max
    rw [lt_iff_toInt_lt, toInt_zero]
    omega
  · intro b c
    exact iff_of_false not_mem_nil fun hin => hunused hin.1
  · intro c d hc
    exact absurd hc hunused
  · have hempty : (⟨hashcap - 1, max, 0, fun _ => ⟨-1, none⟩, fun _ => none⟩ : HashId).used = ∅ :=
      filter_false_of_mem fun c _ => hunused
    rw [hempty]
    rfl

/-- The sizes that `hashid_init` tries. -/
def sizes : List Int32 := List.iterate (· * 2) 16 29

theorem initLoop_eq_none (hmax : ¬ max ≤ 1073741824) (hmem : hashcap ∈ sizes) :
    initLoop max rounds hashcap = none := by
  have hall : (sizes.all fun x => x ≤ 1073741824 ∧ x * 2 ∈ sizes) = true := by decide
  have hnext : ∀ x ∈ sizes, x ≤ 1073741824 ∧ x * 2 ∈ sizes := fun x hx =>
    of_decide_eq_true (all_eq_true.mp hall x hx)
  induction rounds generalizing hashcap with
  | zero => rfl
  | succ rounds ih =>
    obtain ⟨hle, hdouble⟩ := hnext hashcap hmem
    have hlt : hashcap < max := Int32.lt_of_le_of_lt hle (Int32.not_le.mp hmax)
    rw [initLoop, if_pos hlt]
    exact ih hdouble

theorem exists_initLoop (hmax : max ≤ 1073741824) :
    ∀ n ≤ 26, ∃ hashcap, initLoop max (n + 1) (ofNat (2 ^ (30 - n))) = some hashcap := by
  intro n hn
  induction n with
  | zero => exact ⟨_, if_neg (Int32.not_lt.mpr hmax)⟩
  | succ n ih =>
    rw [initLoop]
    split_ifs
    · have hpow : 2 ^ (30 - n) = 2 ^ (30 - (n + 1)) * 2 := by
        rw [← Nat.pow_succ]
        congr 1
        omega
      have hdouble : ofNat (2 ^ (30 - (n + 1))) * 2 = ofNat (2 ^ (30 - n)) := by
        rw [hpow, ofNat_mul]
        rfl
      rw [hdouble]
      exact ih (by omega)
    · exact ⟨_, rfl⟩

/-- For more than 2^30 nodes the number of chains wraps, and the loop does not end. -/
theorem exists_init_iff : (∃ rounds hi, init rounds max = some hi) ↔ max ≤ 1073741824 := by
  constructor
  · rintro ⟨rounds, hi, hinit⟩
    by_contra hmax
    obtain ⟨hashcap, hloop, -⟩ := map_eq_some_iff.mp hinit
    have hfirst : (16 : Int32) ∈ sizes := by decide
    rw [initLoop_eq_none hmax hfirst] at hloop
    cases hloop
  · intro hmax
    obtain ⟨hashcap, hloop⟩ := exists_initLoop hmax 26 (Nat.le_refl _)
    exact ⟨27, _, map_eq_some_iff.mpr ⟨hashcap, hloop, rfl⟩⟩

end HashId

/-! ### Runs -/

/-- The calls of the table. -/
inductive HashOp
  | insert (id : Int32)
  | remove (id : Int32)
  | lookup (id : Int32)

/-- A table, and the index that the last insertion of an id has returned, as long as the id was not
removed. -/
structure HashRun where
  table : HashId
  given : Int32 → Option Int32

namespace HashRun

variable (s : HashRun)

/-- One call, if the assertions hold. -/
def step : HashOp → Option HashRun
  | .insert id => (s.table.insert id).toOption.map fun r =>
      ⟨r.2, update s.given id (some r.1)⟩
  | .remove id => (s.table.remove id).toOption.map fun r => ⟨r.2, update s.given id none⟩
  | .lookup id => (s.table.lookup id).toOption.map fun _ => s

/-- An id that can be inserted. -/
def New (id : Int32) : Prop := s.table.full = false ∧ 0 ≤ id ∧ s.given id = none

/-- An id that is inserted is new, and gets a node before an index wraps. -/
def Meets : HashOp → Prop
  | .insert id => s.New id ∧ s.table.Reaches id
  | _ => True

/-- The table of `max` nodes says what is recorded, and different ids have different nodes. -/
structure Exact (max : Int32) : Prop where
  lookup : ∀ id, s.table.lookup id = .ok ((s.given id).getD (-1))
  remove : ∀ id, ∃ hi, s.table.remove id = .ok ((s.given id).getD (-1), hi)
  range : ∀ {id k}, s.given id = some k → 0 ≤ k ∧ k < max
  injective : ∀ {id id' k}, s.given id = some k → s.given id' = some k → id = id'
  count : ∃ ids : Finset Int32, (∀ id, id ∈ ids ↔ (s.given id).isSome) ∧
    s.table.count.toInt = ids.card

/-- An insertion returns a node that no id has. -/
def Serves (max id : Int32) : Prop :=
  ∃ k hi, s.table.insert id = .ok (k, hi) ∧ 0 ≤ k ∧ k < max ∧ ∀ id', s.given id' ≠ some k

/-- What is recorded are the nodes of the table. -/
def Records (max : Int32) : Prop := s.table.cap = max ∧ (∃ chains, s.table.Valid chains) ∧
    ∀ id k, s.given id = some k ↔ ∃ c, s.table.Used c ∧ (s.table.id c).id = id ∧ ofNat c = k

variable {s} {s' : HashRun} {max id k : Int32} {m : HashOp} {w : List HashOp} {c d : ℕ}

namespace Records

theorem ofNat_spec (hcap : s.table.cap = max) (hlt : c < s.table.cap.toNatClampNeg) :
    (ofNat c).toInt = c ∧ 0 ≤ ofNat c ∧ ofNat c < max := by
  have hmax := s.table.cap.toNatClampNeg_lt
  have hint : (ofNat c).toInt = c := toInt_ofNat_of_lt (by omega)
  have hnat : s.table.cap.toInt.toNat = s.table.cap.toNatClampNeg := toNat_toInt _
  rw [le_iff_toInt_le, lt_iff_toInt_lt, ← hcap, hint, toInt_zero]
  omega

theorem ofNat_inj (hcap : s.table.cap = max) (hc : c < s.table.cap.toNatClampNeg)
    (hd : d < s.table.cap.toNatClampNeg) (heq : ofNat c = ofNat d) : c = d := by
  have hint := congrArg toInt heq
  rw [(ofNat_spec hcap hc).1, (ofNat_spec hcap hd).1] at hint
  exact_mod_cast hint

variable (h : s.Records max)
include h

theorem given_eq {b : ℕ} {chains : ℕ → List ℕ} (hvalid : s.table.Valid chains)
    (hb : s.table.bucket id = .ok b) :
    s.given id = ((chains b).find? fun c => (s.table.id c).id = id).map ofNat := by
  ext k
  rw [h.2.2, map_eq_some_iff]
  refine exists_congr fun c => ?_
  rw [hvalid.find?_eq_some_iff hb, and_assoc]

theorem exact : s.Exact max := by
  obtain ⟨hcap, ⟨chains, hvalid⟩, hgiven⟩ := h
  have hrecords : s.Records max := ⟨hcap, ⟨chains, hvalid⟩, hgiven⟩
  constructor
  · intro id
    obtain ⟨b, hb⟩ := HashId.exists_bucket hvalid.hashmod id
    rw [hvalid.lookup_eq hb, hrecords.given_eq hvalid hb]
  · intro id
    obtain ⟨b, hb⟩ := HashId.exists_bucket hvalid.hashmod id
    rw [hrecords.given_eq hvalid hb]
    rcases HashId.remove_of_valid hvalid hb with ⟨hnone, hremove⟩ | ⟨c, hi, -, hsome, hremove, -⟩
    · rw [hnone]
      exact ⟨_, hremove⟩
    · rw [hsome]
      exact ⟨hi, hremove⟩
  · intro id k hk
    obtain ⟨c, hc, -, rfl⟩ := (hgiven id k).mp hk
    exact (ofNat_spec hcap hc.1).2
  · intro id id' k hk hk'
    obtain ⟨c, hc, rfl, rfl⟩ := (hgiven id k).mp hk
    obtain ⟨d, hd, rfl, heq⟩ := (hgiven id' _).mp hk'
    rw [ofNat_inj hcap hd.1 hc.1 heq]
  · refine ⟨s.table.used.image fun c => (s.table.id c).id, fun id => ?_, ?_⟩
    · rw [mem_image, isSome_iff_exists]
      constructor
      · rintro ⟨c, hc, rfl⟩
        exact ⟨_, (hgiven _ _).mpr ⟨c, (Finset.mem_filter.mp hc).2, rfl, rfl⟩⟩
      · rintro ⟨k, hk⟩
        obtain ⟨c, hc, hid, -⟩ := (hgiven id k).mp hk
        exact ⟨c, Finset.mem_filter.mpr ⟨Finset.mem_range.mpr hc.1, hc⟩, hid⟩
    · rw [card_image_of_injOn, hvalid.count]
      intro c hc d hd heq
      exact hvalid.injective (Finset.mem_filter.mp hc).2 (Finset.mem_filter.mp hd).2 heq

theorem not_mem (hgiven : s.given id = none) : ∀ c, s.table.Used c → (s.table.id c).id ≠ id := by
  intro c hc hid
  have hsome := (h.2.2 id _).mpr ⟨c, hc, hid, rfl⟩
  rw [hgiven] at hsome
  cases hsome

theorem insert (hnew : s.New id) :
    s.table.Reaches id ∧ (∃ k hi, s.table.insert id = .ok (k, hi) ∧ 0 ≤ k ∧ k < max ∧
        (∀ id', s.given id' ≠ some k) ∧
        (⟨hi, update s.given id (some k)⟩ : HashRun).Records max) ∨
      ¬ s.table.Reaches id ∧ s.table.insert id = .error .badIndex := by
  obtain ⟨hcap, ⟨chains, hvalid⟩, hgiven⟩ := And.intro h.1 h.2
  obtain ⟨hfull, hpos, hnone⟩ := hnew
  have hne : id ≠ -1 := by
    rintro rfl
    exact absurd hpos (by decide)
  rcases HashId.insert_of_valid hvalid hfull hpos (h.not_mem hnone) with
    ⟨hreaches, b, c, hinsert, hc, hfree, hvalid'⟩ | hbad
  · obtain ⟨-, hnonneg, hlt⟩ := ofNat_spec hcap hc
    refine .inl ⟨hreaches, _, _, hinsert, hnonneg, hlt, ?_, hcap, ⟨_, hvalid'⟩, ?_⟩
    · intro id' hid'
      obtain ⟨d, hd, -, heq⟩ := (hgiven _ _).mp hid'
      obtain rfl := ofNat_inj hcap hd.1 hc heq
      exact hd.2 hfree
    · intro id' k
      show update s.given id (some (ofNat c)) id' = some k ↔ ∃ d,
        (s.table.linkNode id b c).Used d ∧ ((s.table.linkNode id b c).id d).id = id' ∧ _
      simp only [HashId.used_linkNode hc hne, HashId.id_linkNode]
      rw [update_some_eq_some_iff, hgiven]
      constructor
      · rintro (⟨rfl, rfl⟩ | ⟨-, d, hd, hid, heq⟩)
        · exact ⟨c, .inl rfl, if_pos rfl, rfl⟩
        · have hdc : d ≠ c := fun hdc => hd.2 (hdc ▸ hfree)
          exact ⟨d, .inr hd, (if_neg hdc).trans hid, heq⟩
      · rintro ⟨d, hd, hid, heq⟩
        by_cases hdc : d = c
        · subst hdc
          rw [if_pos rfl] at hid
          exact .inl ⟨hid.symm, heq⟩
        · rw [if_neg hdc] at hid
          have hused := hd.resolve_left hdc
          refine .inr ⟨?_, d, hused, hid, heq⟩
          rintro rfl
          exact h.not_mem hnone d hused hid
  · exact .inr hbad

theorem remove {hi : HashId} (hremove : s.table.remove id = .ok (k, hi)) :
    (⟨hi, update s.given id none⟩ : HashRun).Records max := by
  obtain ⟨hcap, ⟨chains, hvalid⟩, hgiven⟩ := And.intro h.1 h.2
  obtain ⟨b, hb⟩ := HashId.exists_bucket hvalid.hashmod id
  have hrecorded := h.given_eq hvalid hb
  rcases HashId.remove_of_valid hvalid hb with ⟨hnone, hsame⟩ |
    ⟨c, hi', chains', hsome, hremoved, hvalid', hcap', hids⟩
  · -- there was no such id
    rw [hnone, map_none] at hrecorded
    obtain ⟨-, rfl⟩ := Prod.mk.inj (Except.ok.inj (hsame.symm.trans hremove))
    have hupdate : update s.given id none = s.given := by
      rw [← hrecorded, update_eq_self]
    rw [hupdate]
    exact h
  · obtain ⟨-, rfl⟩ := Prod.mk.inj (Except.ok.inj (hremoved.symm.trans hremove))
    obtain ⟨hused, hid⟩ := (hvalid.find?_eq_some_iff hb).mp hsome
    refine ⟨hcap'.trans hcap, ⟨chains', hvalid'⟩, fun id' k => ?_⟩
    have hused' : ∀ d, hi'.Used d ↔ s.table.Used d ∧ d ≠ c := by
      intro d
      rw [HashId.Used, HashId.Used, hids, hcap']
      by_cases hdc : d = c
      · subst hdc
        simp
      · simp [hdc]
    show update s.given id none id' = some k ↔ ∃ d, hi'.Used d ∧ (hi'.id d).id = id' ∧ ofNat d = k
    rw [update_none_eq_some_iff, hgiven]
    constructor
    · rintro ⟨hne, d, hd, hid', heq⟩
      have hdc : d ≠ c := by
        rintro rfl
        exact hne (hid'.symm.trans hid)
      exact ⟨d, (hused' d).mpr ⟨hd, hdc⟩, by rw [hids, if_neg hdc, hid'], heq⟩
    · rintro ⟨d, hd, hid', heq⟩
      obtain ⟨hd, hdc⟩ := (hused' d).mp hd
      rw [hids, if_neg hdc] at hid'
      refine ⟨?_, d, hd, hid', heq⟩
      rintro rfl
      exact hdc (hvalid.injective hd hused (hid'.trans hid.symm))

theorem step (hmeets : s.Meets m) (hstep : s.step m = some s') : s'.Records max := by
  unfold HashRun.step at hstep
  cases m with
  | insert id =>
    obtain ⟨hnew, hreaches⟩ := hmeets
    rcases h.insert hnew with ⟨-, k, hi, hinsert, -, -, -, hrecords⟩ | ⟨hnot, -⟩
    · simp only [hinsert] at hstep
      obtain rfl := some.inj hstep
      exact hrecords
    · exact absurd hreaches hnot
  | remove id =>
    obtain ⟨⟨k, hi⟩, hremove, rfl⟩ := map_eq_some_iff.mp hstep
    exact h.remove (toOption_eq_some_iff.mp hremove)
  | lookup id =>
    obtain ⟨k, -, rfl⟩ := map_eq_some_iff.mp hstep
    exact h

end Records

/-- `hashid_init` returns for up to 2^30 nodes. From then on, along every run in which the ids that
are inserted are new and get a node before an index wraps, the functions say what is recorded; and
then a new id is inserted with no assertion that fails and no index outside of the nodes, if and
only if it gets a node before an index wraps. -/
theorem exact_iff_reaches {max : Int32} (hmax : 1 ≤ max) :
    ((∃ rounds hi, HashId.init rounds max = some hi) ↔ max ≤ 1073741824) ∧
    ∀ rounds hi w s, HashId.init rounds max = some hi →
      Run HashRun.step HashRun.Meets ⟨hi, fun _ => none⟩ w s →
      s.Exact max ∧ ∀ id, s.New id → (s.Serves max id ↔ s.table.Reaches id) := by
  refine ⟨HashId.exists_init_iff, fun rounds hi w s hinit hrun => ?_⟩
  have hrecords : s.Records max := by
    refine hrun.invariant (P := fun s : HashRun => s.Records max) ?_
      fun hmeets hstep h => h.step hmeets hstep
    obtain ⟨hvalid, hcap, hunused⟩ := HashId.Valid.of_init hmax hinit
    refine ⟨hcap, ⟨_, hvalid⟩, fun id k => ?_⟩
    exact iff_of_false (fun h => by cases h) fun ⟨c, hc, _⟩ => hunused c hc
  refine ⟨hrecords.exact, fun id hnew => ?_⟩
  rcases hrecords.insert hnew with
    ⟨hreaches, k, hi, hinsert, hnonneg, hlt, hfresh, -⟩ | ⟨hnot, hbad⟩
  · exact iff_of_true ⟨k, hi, hinsert, hnonneg, hlt, hfresh⟩ hreaches
  · refine iff_of_false ?_ hnot
    rintro ⟨k, hi, hinsert, -⟩
    cases hbad.symm.trans hinsert

/-- A table of three nodes. -/
theorem exact_iff_reaches_three : ∃ hi s, HashId.init 1 3 = some hi ∧
    Run HashRun.step HashRun.Meets ⟨hi, fun _ => none⟩ [.insert 4, .insert 7, .remove 4] s ∧
    s.Exact 3 ∧ (s.Serves 3 2147483647 ↔ s.table.Reaches 2147483647) := by
  obtain ⟨hi, hinit⟩ : ∃ hi, HashId.init 1 3 = some hi := ⟨_, rfl⟩
  obtain ⟨s₁, hstep₁, hmeets₁, s₂, hstep₂, hmeets₂, s₃, hstep₃, hnew⟩ : ∃ s₁,
      HashRun.step ⟨hi, fun _ => none⟩ (.insert 4) = some s₁ ∧
      HashRun.Meets ⟨hi, fun _ => none⟩ (.insert 4) ∧
      ∃ s₂, s₁.step (.insert 7) = some s₂ ∧ s₁.Meets (.insert 7) ∧
      ∃ s₃, s₂.step (.remove 4) = some s₃ ∧ s₃.New 2147483647 := by
    obtain rfl := Option.some.inj hinit
    refine ⟨_, rfl, ⟨⟨rfl, by decide, rfl⟩, .inl ⟨0, by decide, by decide, rfl⟩⟩, _, rfl,
      ⟨⟨rfl, by decide, rfl⟩, .inl ⟨1, by decide, by decide, rfl⟩⟩, _, rfl, rfl, by decide, rfl⟩
  have hempty : Run HashRun.step HashRun.Meets ⟨hi, fun _ => none⟩ [] ⟨hi, fun _ => none⟩ := .nil _
  have hmeets₃ : s₂.Meets (.remove 4) := trivial
  have hrun := ((hempty.snoc hmeets₁ hstep₁).snoc hmeets₂ hstep₂).snoc hmeets₃ hstep₃
  have hmax : (1 : Int32) ≤ 3 := by decide
  obtain ⟨hexact, hserves⟩ := (exact_iff_reaches hmax).2 1 hi _ s₃ hinit hrun
  exact ⟨hi, s₃, hinit, hrun, hexact, hserves _ hnew⟩

/-- The largest id, where its node is not free. -/
theorem wrapped_index : ∃ hi hi', HashId.init 1 3 = some hi ∧ hi.insert 1 = .ok (1, hi') ∧
    hi'.full = false ∧ hi'.lookup 2147483647 = .ok (-1) ∧
    hi'.insert 2147483647 = .error .badIndex :=
  ⟨_, _, rfl, rfl, rfl, rfl, rfl⟩

end HashRun

end Uboss.Module
