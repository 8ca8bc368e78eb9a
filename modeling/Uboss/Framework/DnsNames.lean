import Uboss.Framework.Dns
import Uboss.Math.Fuel

/-!
# Names in a datagram

`unpack_name` goes from one position to the next, which may be anywhere behind a pointer. It ends if
it does not come to a position twice, since the positions it can leave lie within the datagram.
-/

namespace Uboss.Framework.Dns

open Math Lib Lib.LuaText Lib.LuaPack List Option Nat Prod FuelMono Except

/-! ### Positions -/

/-- The tag of a pointer. -/
def IsPointer (c : UInt8) : Prop := c.toNat &&& 0xc0 = 0xc0

instance (c : UInt8) : Decidable (IsPointer c) := inferInstanceAs (Decidable (_ = _))

/-- The position to which a pointer leads. -/
def pointerTarget (c d : UInt8) : ℕ := ((c.toNat * 256 + d.toNat) &&& 0x3fff) + 1

/-- The position at which a name goes on that has come to a position: behind the label there, or
where the pointer there leads. There is none at the end of a name, and none if what is there is not
all in the datagram. -/
def follow (chunk : LuaString) : ℕ → Option ℕ
  | 0 => none
  | p + 1 =>
    match chunk[p]? with
    | none => none
    | some c =>
      if IsPointer c then chunk[p + 1]?.map (pointerTarget c)
      else if c = 0 then none
      else if p + 1 + c.toNat ≤ chunk.length then some (p + 2 + c.toNat)
      else none

/-- The labels of the name at a position. -/
inductive LabelsAt (chunk : LuaString) : ℕ → List LuaString → Prop
  | zero {p : ℕ} : chunk[p]? = some 0 → LabelsAt chunk (p + 1) []
  | label {p : ℕ} {c : UInt8} {labels : List LuaString} :
      chunk[p]? = some c → ¬ IsPointer c → c ≠ 0 → p + 1 + c.toNat ≤ chunk.length →
      LabelsAt chunk (p + 2 + c.toNat) labels →
      LabelsAt chunk (p + 1) ((chunk.drop (p + 1)).take c.toNat :: labels)
  | pointer {p : ℕ} {c d : UInt8} {labels : List LuaString} :
      chunk[p]? = some c → chunk[p + 1]? = some d → IsPointer c →
      LabelsAt chunk (pointerTarget c d) labels → LabelsAt chunk (p + 1) labels

/-- The position behind the name at a position: behind its first pointer, or its terminating
zero. -/
inductive EndsAt (chunk : LuaString) : ℕ → ℕ → Prop
  | zero {p : ℕ} : chunk[p]? = some 0 → EndsAt chunk (p + 1) (p + 2)
  | label {p e : ℕ} {c : UInt8} :
      chunk[p]? = some c → ¬ IsPointer c → c ≠ 0 → EndsAt chunk (p + 2 + c.toNat) e →
      EndsAt chunk (p + 1) e
  | pointer {p : ℕ} {c : UInt8} : chunk[p]? = some c → IsPointer c → EndsAt chunk (p + 1) (p + 3)

/-- `unpack_name` raises an error or returns after finitely many rounds, and returns the labels of
the name and the position behind it. -/
structure NameParsed (chunk : LuaString) (left : ℕ) : Prop where
  finite : Settles fun rounds => unpackName rounds chunk left
  right : ∀ {rounds name next}, unpackName rounds chunk left = some (.ok (name, next)) →
    (∃ labels, LabelsAt chunk left labels ∧ name = intercalate [46] labels) ∧ EndsAt chunk left next

variable {chunk : LuaString} {p left : ℕ} {c d : UInt8} {s : NameState}

/-! ### A round -/

section

variable (h : chunk[p]? = some c)
include h

theorem take_one : (chunk.drop p).take 1 = [c] := by
  obtain ⟨hlt, rfl⟩ := List.getElem?_eq_some_iff.mp h
  rw [drop_eq_getElem_cons hlt]
  rfl

theorem take_two (h' : chunk[p + 1]? = some d) : (chunk.drop p).take 2 = [c, d] := by
  obtain ⟨hlt, rfl⟩ := List.getElem?_eq_some_iff.mp h
  obtain ⟨hlt', rfl⟩ := List.getElem?_eq_some_iff.mp h'
  rw [drop_eq_getElem_cons hlt, drop_eq_getElem_cons hlt']
  rfl

theorem unpackByte_of_some : unpackUInt 1 chunk (p + 1) = .ok (c.toNat, p + 2) := by
  have hlt : p < chunk.length := (List.getElem?_eq_some_iff.mp h).1
  rw [unpackUInt_eq (succ_pos p) hlt]
  change ok (leNat ((chunk.drop p).take 1).reverse, p + 2) = _
  rw [take_one h]
  have hvalue : leNat [c] = c.toNat := Nat.add_zero _
  exact congrArg ok (congrArg (·, p + 2) hvalue)

theorem unpackWord_of_some (h' : chunk[p + 1]? = some d) :
    unpackUInt 2 chunk (p + 1) = .ok (c.toNat * 256 + d.toNat, p + 3) := by
  have hlt : p + 1 < chunk.length := (List.getElem?_eq_some_iff.mp h').1
  rw [unpackUInt_eq (succ_pos p) hlt]
  change ok (leNat ((chunk.drop p).take 2).reverse, p + 3) = _
  rw [take_two h h']
  have hvalue : leNat [d, c] = c.toNat * 256 + d.toNat := by
    rw [leNat, leNat, leNat]
    omega
  exact congrArg ok (congrArg (·, p + 3) hvalue)

end

variable {name : LuaString} {s' : NameState} {rounds : ℕ} {next : ℕ}

theorem unpackUInt_of_short {size : ℕ} (h : chunk.length < p + size) :
    ∃ e, unpackUInt size chunk (p + 1) = .error e := by
  rw [unpackUInt]
  split
  · exact ⟨_, rfl⟩
  · exact ⟨_, if_pos h⟩

theorem unpackLabel_of_le (h : chunk[p]? = some c) (hfits : p + 1 + c.toNat ≤ chunk.length) :
    unpackString 1 chunk (p + 1) = .ok ((chunk.drop (p + 1)).take c.toNat, p + 2 + c.toNat) := by
  rw [unpackString, unpackByte_of_some h]
  exact if_neg (Nat.not_lt.mpr hfits)

theorem unpackLabel_of_lt (h : chunk[p]? = some c) (hshort : chunk.length < p + 1 + c.toNat) :
    unpackString 1 chunk (p + 1) = .error .tooShort := by
  rw [unpackString, unpackByte_of_some h]
  exact if_pos hshort

/-- What a round does, by what is at the position. -/
inductive RoundAt (chunk : LuaString) (s : NameState) : Prop
  | error {e : PackError} : nameStep chunk s = .error e → follow chunk s.left = none →
      RoundAt chunk s
  | zero {p : ℕ} : s.left = p + 1 → chunk[p]? = some 0 →
      nameStep chunk s = .ok (.done (intercalate [46] s.t) (s.jumpPointer.getD (p + 2))) →
      follow chunk s.left = none → RoundAt chunk s
  | label {p : ℕ} {c : UInt8} : s.left = p + 1 → chunk[p]? = some c → ¬ IsPointer c → c ≠ 0 →
      p + 1 + c.toNat ≤ chunk.length →
      nameStep chunk s = .ok (.next { s with
        t := s.t ++ [(chunk.drop (p + 1)).take c.toNat], left := p + 2 + c.toNat }) →
      follow chunk s.left = some (p + 2 + c.toNat) → RoundAt chunk s
  | pointer {p : ℕ} {c d : UInt8} : s.left = p + 1 → chunk[p]? = some c → chunk[p + 1]? = some d →
      IsPointer c →
      nameStep chunk s = .ok (.next { s with
        jumpPointer := some (s.jumpPointer.getD (p + 3)), left := pointerTarget c d }) →
      follow chunk s.left = some (pointerTarget c d) → RoundAt chunk s

/-- What a round does. -/
theorem nameStep_cases (chunk : LuaString) (s : NameState) : RoundAt chunk s := by
  obtain ⟨t, jump, left⟩ := s
  cases left with
  | zero => exact .error (e := .position) rfl rfl
  | succ p =>
    cases hc : chunk[p]? with
    | none =>
      have hshort : chunk.length < p + 1 := lt_succ_of_le (getElem?_eq_none_iff.mp hc)
      obtain ⟨e, he⟩ := unpackUInt_of_short hshort
      refine .error (e := e) ?_ ?_
      · rw [nameStep, he]
        rfl
      · rw [follow, hc]
    | some c =>
      have hfollow : follow chunk (p + 1) =
          if IsPointer c then chunk[p + 1]?.map (pointerTarget c)
          else if c = 0 then none
          else if p + 1 + c.toNat ≤ chunk.length then some (p + 2 + c.toNat) else none := by
        rw [follow, hc]
      have hstep : nameStep chunk { t, jumpPointer := jump, left := p + 1 } =
          if IsPointer c then
            (unpackUInt 2 chunk (p + 1)).map fun r => .next
              { t, jumpPointer := some (jump.getD r.2), left := (r.1 &&& 0x3fff) + 1 }
          else if c.toNat = 0 then .ok (.done (intercalate [46] t) (jump.getD (p + 2)))
          else (unpackString 1 chunk (p + 1)).map fun r => .next
              { t := t ++ [r.1], jumpPointer := jump, left := r.2 } := by
        rw [nameStep, unpackByte_of_some hc]
        change (if IsPointer c then _ else _) = _
        by_cases hpointer : IsPointer c
        · rw [if_pos hpointer, if_pos hpointer]
          change (unpackUInt 2 chunk (p + 1) >>= _) = _
          cases unpackUInt 2 chunk (p + 1) <;> rfl
        · rw [if_neg hpointer, if_neg hpointer]
          by_cases hzero : c.toNat = 0
          · rw [if_pos hzero, if_pos hzero]
            rfl
          · rw [if_neg hzero, if_neg hzero]
            change (unpackString 1 chunk (p + 1) >>= _) = _
            cases unpackString 1 chunk (p + 1) <;> rfl
      by_cases hpointer : IsPointer c
      · rw [if_pos hpointer] at hstep hfollow
        cases hd : chunk[p + 1]? with
        | none =>
          have hshort : chunk.length < p + 2 := lt_succ_of_le (getElem?_eq_none_iff.mp hd)
          obtain ⟨e, he⟩ := unpackUInt_of_short hshort
          rw [he] at hstep
          rw [hd] at hfollow
          exact .error hstep hfollow
        | some d =>
          rw [unpackWord_of_some hc hd] at hstep
          rw [hd] at hfollow
          exact .pointer rfl hc hd hpointer hstep hfollow
      · rw [if_neg hpointer] at hstep hfollow
        by_cases hzero : c = 0
        · subst hzero
          exact .zero rfl hc hstep hfollow
        · have hnat : c.toNat ≠ 0 := fun h => hzero (UInt8.toNat.inj h)
          rw [if_neg hnat] at hstep
          rw [if_neg hzero] at hfollow
          by_cases hfits : p + 1 + c.toNat ≤ chunk.length
          · rw [unpackLabel_of_le hc hfits] at hstep
            rw [if_pos hfits] at hfollow
            exact .label rfl hc hpointer hzero hfits hstep hfollow
          · rw [unpackLabel_of_lt hc (Nat.lt_of_not_le hfits)] at hstep
            rw [if_neg hfits] at hfollow
            exact .error hstep hfollow

/-! ### Rounds -/

theorem unpackNameLoop_error {e : PackError} (h : nameStep chunk s = .error e) (rounds : ℕ) :
    unpackNameLoop chunk (rounds + 1) s = some (.error (.unpack e)) := by
  rw [unpackNameLoop.eq_def]
  dsimp only
  rw [h]

theorem unpackNameLoop_done (h : nameStep chunk s = .ok (.done name left)) (rounds : ℕ) :
    unpackNameLoop chunk (rounds + 1) s = some (.ok (name, left)) := by
  rw [unpackNameLoop.eq_def]
  dsimp only
  rw [h]

theorem unpackNameLoop_next (h : nameStep chunk s = .ok (.next s')) (rounds : ℕ) :
    unpackNameLoop chunk (rounds + 1) s = unpackNameLoop chunk rounds s' := by
  rw [unpackNameLoop.eq_def]
  dsimp only
  rw [h]

/-- By induction on the rounds: those that were enough are the first of more rounds. -/
theorem unpackNameLoop_mono (chunk : LuaString) (s : NameState) :
    FuelMono fun rounds => unpackNameLoop chunk rounds s := by
  intro m n r hle hr
  dsimp only at hr ⊢
  induction m generalizing s n with
  | zero => cases hr
  | succ m ih =>
    obtain ⟨n, rfl⟩ : ∃ n', n = n' + 1 := ⟨n - 1, by omega⟩
    cases hstep : nameStep chunk s with
    | error e =>
      rw [unpackNameLoop_error hstep] at hr ⊢
      exact hr
    | ok next =>
      cases next with
      | done name left =>
        rw [unpackNameLoop_done hstep] at hr ⊢
        exact hr
      | next s' =>
        rw [unpackNameLoop_next hstep] at hr ⊢
        exact ih s' (le_of_succ_le_succ hle) hr

theorem settles_of_next (h : nameStep chunk s = .ok (.next s')) :
    (Settles fun rounds => unpackNameLoop chunk rounds s) ↔
      Settles fun rounds => unpackNameLoop chunk rounds s' := by
  constructor
  · rintro ⟨rounds, r, hr⟩
    dsimp only at hr
    cases rounds with
    | zero => cases hr
    | succ rounds =>
      rw [unpackNameLoop_next h] at hr
      exact ⟨rounds, r, hr⟩
  · rintro ⟨rounds, r, hr⟩
    exact ⟨rounds + 1, r, (unpackNameLoop_next h rounds).trans hr⟩

theorem settles_of_ends (h : Ends (follow chunk) left) : ∀ s : NameState, s.left = left →
    Settles fun rounds => unpackNameLoop chunk rounds s := by
  refine Ends.induct (P := fun left => ∀ s : NameState, s.left = left →
    Settles fun rounds => unpackNameLoop chunk rounds s) h ?_ ?_
  · rintro left hnone s rfl
    cases nameStep_cases chunk s with
    | error hstep _ => exact ⟨1, _, unpackNameLoop_error hstep 0⟩
    | zero _ _ hstep _ => exact ⟨1, _, unpackNameLoop_done hstep 0⟩
    | label _ _ _ _ _ _ hfollow =>
      rw [hnone] at hfollow
      cases hfollow
    | pointer _ _ _ _ _ hfollow =>
      rw [hnone] at hfollow
      cases hfollow
  · rintro left next hsome hrest s rfl
    cases nameStep_cases chunk s with
    | error _ hfollow =>
      rw [hsome] at hfollow
      cases hfollow
    | zero _ _ _ hfollow =>
      rw [hsome] at hfollow
      cases hfollow
    | label _ _ _ _ _ hstep hfollow =>
      rw [hsome] at hfollow
      exact (settles_of_next hstep).mpr (hrest _ (some.inj hfollow).symm)
    | pointer _ _ _ _ hstep hfollow =>
      rw [hsome] at hfollow
      exact (settles_of_next hstep).mpr (hrest _ (some.inj hfollow).symm)

theorem ends_of_rounds {r : Except DnsError (LuaString × ℕ)}
    (h : unpackNameLoop chunk rounds s = some r) : Ends (follow chunk) s.left := by
  induction rounds generalizing s with
  | zero => cases h
  | succ rounds ih =>
    cases nameStep_cases chunk s with
    | error _ hfollow => exact ends_of_none hfollow
    | zero _ _ _ hfollow => exact ends_of_none hfollow
    | label _ _ _ _ _ hstep hfollow =>
      rw [unpackNameLoop_next hstep] at h
      exact (ends_iff_of_some hfollow).mpr (ih h)
    | pointer _ _ _ _ hstep hfollow =>
      rw [unpackNameLoop_next hstep] at h
      exact (ends_iff_of_some hfollow).mpr (ih h)

/-- What is returned, by induction on the rounds. -/
theorem unpackNameLoop_ok (h : unpackNameLoop chunk rounds s = some (.ok (name, next))) :
    ∃ labels e, LabelsAt chunk s.left labels ∧ name = intercalate [46] (s.t ++ labels) ∧
      EndsAt chunk s.left e ∧ next = s.jumpPointer.getD e := by
  induction rounds generalizing s with
  | zero => cases h
  | succ rounds ih =>
    cases nameStep_cases chunk s with
    | error hstep _ =>
      rw [unpackNameLoop_error hstep] at h
      cases h
    | zero hleft hc hstep _ =>
      rw [unpackNameLoop_done hstep] at h
      obtain ⟨rfl, rfl⟩ := mk.inj (ok.inj (some.inj h))
      rw [hleft]
      exact ⟨[], _, .zero hc, by rw [append_nil], .zero hc, rfl⟩
    | label hleft hc hpointer hzero hfits hstep _ =>
      rw [unpackNameLoop_next hstep] at h
      obtain ⟨labels, e, hlabels, hname, hends, hnext⟩ := ih h
      rw [hleft]
      refine ⟨_, e, .label hc hpointer hzero hfits hlabels, ?_, .label hc hpointer hzero hends,
        hnext⟩
      rw [hname, append_assoc]
      rfl
    | pointer hleft hc hd hpointer hstep _ =>
      rw [unpackNameLoop_next hstep] at h
      obtain ⟨labels, e, hlabels, hname, -, hnext⟩ := ih h
      rw [hleft]
      exact ⟨labels, _, .pointer hc hd hpointer hlabels, hname, .pointer hc hpointer, hnext⟩

/-- The name that is returned is the one at the position. -/
theorem unpackName_ok (h : unpackName rounds chunk left = some (.ok (name, next))) :
    (∃ labels, LabelsAt chunk left labels ∧ name = intercalate [46] labels) ∧
      EndsAt chunk left next := by
  obtain ⟨labels, e, hlabels, hname, hends, rfl⟩ := unpackNameLoop_ok h
  exact ⟨⟨labels, hlabels, hname⟩, hends⟩

/-- The positions at which a name goes on lie within the datagram. -/
theorem follow_bound (h : follow chunk left = some next) :
    left ∈ Finset.range (chunk.length + 1) := by
  cases left with
  | zero => cases h
  | succ p =>
    rw [Finset.mem_range]
    by_contra hout
    have hnone : chunk[p]? = none := getElem?_eq_none_iff.mpr (by omega)
    rw [follow, hnone] at h
    cases h

theorem settles_unpackName_iff : (Settles fun rounds => unpackName rounds chunk left) ↔
    NoRevisit (follow chunk) left := by
  rw [← ends_iff_noRevisit fun _ _ => follow_bound]
  constructor
  · rintro ⟨rounds, r, hr⟩
    exact ends_of_rounds hr
  · exact fun h => settles_of_ends h _ rfl

/-- A name is read in finitely many rounds if and only if it does not come to a position twice. -/
theorem nameParsed_iff : NameParsed chunk left ↔ NoRevisit (follow chunk) left :=
  ⟨fun h => settles_unpackName_iff.mp h.finite,
    fun h => ⟨settles_unpackName_iff.mpr h, unpackName_ok⟩⟩

/-! ### A datagram -/

/-- The positions at which the loop of `resolve` reads a name, from a number of answers on. -/
inductive AnswersRead (content : LuaString) : ℕ → ℕ → Answers → ℕ → Prop
  | here {n left : ℕ} {acc : Answers} : AnswersRead content (n + 1) left acc left
  | later {n left next rounds pos : ℕ} {acc acc' : Answers} {answer : Answer} :
      unpackAnswer rounds content left = some (.ok (answer, next)) → acc.add answer = .ok acc' →
      AnswersRead content n next acc' pos → AnswersRead content (n + 1) left acc pos

/-- The positions at which `resolve` calls `unpack_name`. -/
inductive ResolveReads (content : LuaString) : ℕ → Prop
  | question {answerHeader : Header} {left : ℕ} :
      dnsHeaderLen ≤ content.length → unpackHeader content = .ok (answerHeader, left) →
      answerHeader.qdcount = 1 → ResolveReads content left
  | answer {answerHeader : Header} {left next rounds pos : ℕ} {question : Question} :
      dnsHeaderLen ≤ content.length → unpackHeader content = .ok (answerHeader, left) →
      answerHeader.qdcount = 1 →
      unpackQuestion rounds content left = some (.ok (question, next)) →
      AnswersRead content answerHeader.ancount next
        { ttl := none, answersIpv4 := none, answersIpv6 := none } pos →
      ResolveReads content pos

variable {content : LuaString}

theorem unpackName_mono (chunk : LuaString) (left : ℕ) :
    FuelMono fun rounds => unpackName rounds chunk left := unpackNameLoop_mono chunk _

theorem unpackAnswer_mono (left : ℕ) : FuelMono fun rounds => unpackAnswer rounds content left :=
  (unpackName_mono content left).bind fun _ => const _

theorem unpackQuestion_mono (left : ℕ) :
    FuelMono fun rounds => unpackQuestion rounds content left :=
  (unpackName_mono content left).bind fun _ => const _

theorem readAnswers_mono (n left : ℕ) (acc : Answers) :
    FuelMono fun rounds => readAnswers rounds content n left acc := by
  induction n generalizing left acc with
  | zero => exact const _
  | succ n ih =>
    exact (unpackAnswer_mono left).bind fun r => (const _).bind fun acc' => ih r.2 acc'

theorem hasResult_unpacked {α : Type} (x : Except PackError α) : HasResult (unpacked x) := ⟨_, rfl⟩

theorem settles_unpackAnswer_iff : (Settles fun rounds => unpackAnswer rounds content left) ↔
    NoRevisit (follow content) left := by
  rw [← settles_unpackName_iff]
  refine (settles_bind_iff (unpackName_mono content left) fun _ => const _).trans ?_
  refine and_iff_left fun _ _ _ => HasResult.settles ?_
  exact (hasResult_unpacked _).bind fun _ => (hasResult_unpacked _).bind fun _ =>
    (hasResult_unpacked _).bind fun _ => (hasResult_unpacked _).bind fun _ => .pure _

theorem settles_unpackQuestion_iff : (Settles fun rounds => unpackQuestion rounds content left) ↔
    NoRevisit (follow content) left := by
  rw [← settles_unpackName_iff]
  refine (settles_bind_iff (unpackName_mono content left) fun _ => const _).trans ?_
  refine and_iff_left fun _ _ _ => HasResult.settles ?_
  exact (hasResult_unpacked _).bind fun _ => (hasResult_unpacked _).bind fun _ => .pure _

theorem unpacked_eq_ok {α : Type} {x : Except PackError α} {a : α}
    (h : unpacked x = some (.ok a)) : x = .ok a := by
  cases x with
  | error e => cases h
  | ok b => exact congrArg ok (ok.inj (some.inj h))

/-- By induction on the answers that are left. -/
theorem settles_readAnswers_iff (n left : ℕ) (acc : Answers) :
    (Settles fun rounds => readAnswers rounds content n left acc) ↔
      ∀ pos, AnswersRead content n left acc pos → NoRevisit (follow content) pos := by
  induction n generalizing left acc with
  | zero =>
    refine iff_of_true (HasResult.pure acc).settles fun pos hread => ?_
    cases hread
  | succ n ih =>
    refine (settles_bind_iff (unpackAnswer_mono left) fun r => (const _).bind
      fun acc' => readAnswers_mono n r.2 acc').trans ?_
    rw [settles_unpackAnswer_iff]
    constructor
    · rintro ⟨hfirst, hrest⟩ pos hread
      cases hread with
      | here => exact hfirst
      | later hanswer hadd hlater =>
        have hsettles := (settles_bind_iff (const _) fun acc' =>
          readAnswers_mono n _ acc').mp (hrest _ _ hanswer)
        exact (ih _ _).mp (hsettles.2 0 _ (congrArg unpacked hadd)) pos hlater
    · intro hall
      refine ⟨hall left .here, fun m r hr => ?_⟩
      refine (settles_bind_iff (const _) fun acc' =>
        readAnswers_mono n r.2 acc').mpr ⟨(hasResult_unpacked _).settles, fun k acc' hadd => ?_⟩
      refine (ih r.2 acc').mpr fun pos hread => ?_
      exact hall pos (.later hr (unpacked_eq_ok hadd) hread)

theorem readBody_mono (answerHeader : Header) (left : ℕ) :
    FuelMono fun rounds => readBody answerHeader left rounds content :=
  (unpackQuestion_mono left).bind fun _ => (readAnswers_mono _ _ _).bind fun _ => const _

theorem settles_readBody_iff {answerHeader : Header} :
    (Settles fun rounds => readBody answerHeader left rounds content) ↔
      NoRevisit (follow content) left ∧ ∀ rounds question next pos,
        unpackQuestion rounds content left = some (.ok (question, next)) →
        AnswersRead content answerHeader.ancount next
          { ttl := none, answersIpv4 := none, answersIpv6 := none } pos →
        NoRevisit (follow content) pos := by
  refine (settles_bind_iff (unpackQuestion_mono left) fun _ =>
    (readAnswers_mono _ _ _).bind fun _ => const _).trans ?_
  rw [settles_unpackQuestion_iff]
  refine and_congr_right fun _ => ?_
  constructor
  · intro h rounds question next pos hquestion hread
    have hrest := (settles_bind_iff (readAnswers_mono _ _ _) fun _ => const _).mp
      (h rounds _ hquestion)
    exact (settles_readAnswers_iff _ _ _).mp hrest.1 pos hread
  · intro h rounds r hquestion
    refine (settles_bind_iff (readAnswers_mono _ _ _) fun _ => const _).mpr
      ⟨(settles_readAnswers_iff _ _ _).mpr fun pos hread => ?_, fun _ _ _ =>
        (HasResult.pure _).settles⟩
    exact h rounds r.1 r.2 pos hquestion hread

/-- A datagram is read in finitely many rounds if and only if its names are. -/
theorem settles_readContent_iff : (Settles fun rounds => readContent rounds content) ↔
    ∀ pos, ResolveReads content pos → NoRevisit (follow content) pos := by
  by_cases hshort : content.length < dnsHeaderLen
  · refine iff_of_true ⟨0, _, readContent_of_short hshort 0⟩ fun pos hread => ?_
    cases hread with
    | question hlong _ _ => exact absurd hshort (Nat.not_lt.mpr hlong)
    | answer hlong _ _ _ _ => exact absurd hshort (Nat.not_lt.mpr hlong)
  · cases hheader : unpackHeader content with
    | error e =>
      refine iff_of_true ⟨0, _, readContent_of_error hshort hheader 0⟩ fun pos hread => ?_
      cases hread with
      | question _ h _ => rw [hheader] at h; cases h
      | answer _ h _ _ _ => rw [hheader] at h; cases h
    | ok r =>
      obtain ⟨answerHeader, left⟩ := r
      by_cases hcount : answerHeader.qdcount = 1
      · have hbody : (fun rounds => readContent rounds content) = fun rounds =>
            readBody answerHeader left rounds content :=
          funext fun rounds => (readContent_of_ok hshort hheader rounds).trans
            (if_neg (not_not_intro hcount))
        have hlong := Nat.not_lt.mp hshort
        rw [hbody, settles_readBody_iff]
        constructor
        · rintro ⟨hfirst, hrest⟩ pos hread
          cases hread with
          | question _ h _ =>
            rw [hheader] at h
            obtain ⟨rfl, rfl⟩ := mk.inj (ok.inj h)
            exact hfirst
          | answer _ h _ hquestion hanswers =>
            rw [hheader] at h
            obtain ⟨rfl, rfl⟩ := mk.inj (ok.inj h)
            exact hrest _ _ _ _ hquestion hanswers
        · intro h
          exact ⟨h left (.question hlong hheader hcount), fun rounds question next pos hq hread =>
            h pos (.answer hlong hheader hcount hq hread)⟩
      · refine iff_of_true ⟨0, _, (readContent_of_ok hshort hheader 0).trans (if_pos hcount)⟩
          fun pos hread => ?_
        cases hread with
        | question _ h hone =>
          rw [hheader] at h
          obtain ⟨rfl, rfl⟩ := mk.inj (ok.inj h)
          exact absurd hone hcount
        | answer _ h hone _ _ =>
          rw [hheader] at h
          obtain ⟨rfl, rfl⟩ := mk.inj (ok.inj h)
          exact absurd hone hcount

theorem readContent_mono : FuelMono fun rounds => readContent rounds content := by
  by_cases hshort : content.length < dnsHeaderLen
  · have hconst : (fun rounds => readContent rounds content) = fun _ => some (.ok none) :=
      funext (readContent_of_short hshort)
    rw [hconst]
    exact const _
  · cases hheader : unpackHeader content with
    | error e =>
      have hconst : (fun rounds => readContent rounds content) = fun _ =>
          some (.error (.unpack e)) := funext (readContent_of_error hshort hheader)
      rw [hconst]
      exact const _
    | ok r =>
      have hbody : (fun rounds => readContent rounds content) = fun rounds => _ :=
        funext (readContent_of_ok hshort hheader)
      rw [hbody]
      by_cases hcount : r.1.qdcount ≠ 1
      · simp only [if_pos hcount]
        exact const _
      · simp only [if_neg hcount]
        exact readBody_mono _ _

variable {Co : Type} [DecidableEq Co]

theorem settles_resolve_iff (s : DnsService Co) (now : ℕ) :
    (Settles fun rounds => s.resolve rounds now content) ↔
      ∀ pos, ResolveReads content pos → NoRevisit (follow content) pos := by
  refine (settles_bind_iff readContent_mono fun found => const _).trans ?_
  rw [settles_readContent_iff]
  refine and_iff_left fun _ found _ => HasResult.settles ?_
  cases found with
  | none => exact .pure _
  | some r => exact .pure _

/-- Names and datagrams are read in finitely many rounds if and only if the names that are read do
not come to a position twice. -/
theorem resolve_finite_iff (content : LuaString) :
    (∀ left, NameParsed content left ↔ NoRevisit (follow content) left) ∧
    ∀ (s : DnsService Co) (now : ℕ), (Settles fun rounds => s.resolve rounds now content) ↔
      ∀ left, ResolveReads content left → NoRevisit (follow content) left :=
  ⟨fun _ => nameParsed_iff, fun s now => settles_resolve_iff s now⟩

/-- A datagram of which the question is a pointer to itself. -/
def pointerLoop : LuaString := [0, 1, 129, 128, 0, 1, 0, 0, 0, 0, 0, 0, 192, 12]

/-- Pointers in a circle are followed for ever. -/
theorem resolve_endless : ¬ NameParsed pointerLoop 13 ∧ ResolveReads pointerLoop 13 ∧
    ¬ Settles fun rounds => (DnsService.initial : DnsService ℕ).resolve rounds 0 pointerLoop := by
  have hloop : ¬ NoRevisit (follow pointerLoop) 13 := fun h =>
    absurd (h 0 1 13 rfl rfl) Nat.zero_ne_one
  have hread : ResolveReads pointerLoop 13 := .question (by decide) rfl rfl
  refine ⟨fun h => hloop (nameParsed_iff.mp h), hread, fun h => ?_⟩
  exact hloop ((settles_resolve_iff _ _).mp h 13 hread)

end Uboss.Framework.Dns
