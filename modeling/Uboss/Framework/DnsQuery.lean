import Uboss.Framework.DnsIds
import Uboss.Framework.DnsNames

/-!
# The question of a query

A server sends the question back in front of its answers, and these are stored under the name that
is read there. Labels that are empty are not sent, so that this is another name than the one that
was asked for if that begins or ends with a dot or has two dots one behind the other.
-/

namespace Uboss.Framework.Dns

open Math Lib Lib.LuaText Lib.LuaPack List Nat

variable {name label question before rest : LuaString} {labels packed : List LuaString}
  {qtype : QType} {t : Header}

/-! ### Labels -/

theorem isLabelChar_eq {c : UInt8} (h : isNameChar c) : isLabelChar c = !(c == 46) := by
  rcases eq_or_ne c 46 with rfl | hne
  · rfl
  · have hlabel : isLabelChar c := by
      simp only [isNameChar, decide_eq_true_eq] at h
      simp only [isLabelChar, isAlnum, decide_eq_true_eq]
      tauto
    rw [hlabel, beq_false_of_ne hne]
    rfl

/-- By induction on the name: what was passed of a label is the front of the first part. -/
theorem labelsOf_eq_filter (h : name.all isNameChar) : labelsOf label name =
    ((name.splitOn 46).modifyHead (label ++ ·)).filter (· ≠ []) := by
  induction name generalizing label with
  | nil =>
    rw [labelsOf, splitOn_nil, modifyHead_cons, append_nil]
    by_cases hlabel : label = [] <;> simp [hlabel]
  | cons c name ih =>
    obtain ⟨hc, hname⟩ := Bool.and_eq_true_iff.mp ((all_cons ..).symm.trans h)
    rw [labelsOf, isLabelChar_eq hc, splitOn_cons_eq_if_modifyHead, ih hname, ih hname]
    by_cases hdot : c = 46
    · have hsame : (name.splitOn 46).modifyHead (fun x => x) = name.splitOn 46 :=
        congrFun modifyHead_id _
      by_cases hlabel : label = [] <;> simp [hdot, hlabel, hsame]
    · simp [hdot, Function.comp_def]

/-- By induction on the name: a label ends at a dot, and is put down if it is not empty. -/
theorem of_mem_labelsOf (hlabel : 46 ∉ label) {w : LuaString} (hw : w ∈ labelsOf label name) :
    w ≠ [] ∧ 46 ∉ w := by
  induction name generalizing label with
  | nil =>
    rw [labelsOf] at hw
    split at hw
    · cases hw
    · rename_i hne
      rw [mem_singleton.mp hw]
      exact ⟨hne, hlabel⟩
  | cons c name ih =>
    rw [labelsOf] at hw
    split at hw
    · rename_i hc
      refine ih (fun hmem => ?_) hw
      rcases mem_append.mp hmem with hmem | hmem
      · exact hlabel hmem
      · rw [← mem_singleton.mp hmem] at hc
        cases hc
    · split at hw
      · exact ih not_mem_nil hw
      · rename_i hne
        rcases mem_cons.mp hw with rfl | hw
        · exact ⟨hne, hlabel⟩
        · exact ih not_mem_nil hw

/-- The labels make up the name again if and only if none of its parts is empty. -/
theorem intercalate_labelsOf_iff (hname : verifyDomainName name) :
    intercalate [46] (labelsOf [] name) = name ↔ [] ∉ name.splitOn 46 := by
  obtain ⟨-, hne, hchars, -⟩ := of_decide_eq_true hname
  constructor
  · intro h hmem
    have hlabels : labelsOf [] name ≠ [] := by
      intro hnil
      rw [hnil] at h
      exact hne h.symm
    rw [← h, splitOn_intercalate _ (fun w hw => (of_mem_labelsOf not_mem_nil hw).2) hlabels] at hmem
    exact (of_mem_labelsOf not_mem_nil hmem).1 rfl
  · intro h
    have hparts : labelsOf [] name = name.splitOn 46 := by
      rw [labelsOf_eq_filter hchars]
      refine (congrArg (filter _) (congrFun modifyHead_id _)).trans ?_
      exact filter_eq_self.mpr fun w hw => decide_eq_true fun hnil => h (hnil ▸ hw)
    rw [hparts, intercalate_splitOn]

/-! ### The question -/

theorem packString_label {w y : LuaString} (h : packString 1 w = .ok y) :
    y = UInt8.ofNat w.length :: w := by
  rw [packString, packUInt] at h
  split at h
  · exact (Except.ok.inj h).symm
  · cases h

theorem nameStep_label {chunk w : LuaString} (hw : w ≠ []) (hlen : w.length ≤ maxLabelLen)
    (hchunk : chunk = before ++ UInt8.ofNat w.length :: w ++ rest) (t : List LuaString) :
    nameStep chunk { t, jumpPointer := none, left := before.length + 1 } =
      .ok (.next { t := t ++ [w], jumpPointer := none, left := before.length + 2 + w.length }) := by
  have hnat : (UInt8.ofNat w.length).toNat = w.length := mod_eq_of_lt (hlen.trans_lt (by decide))
  have hc : chunk[before.length]? = some (UInt8.ofNat w.length) := by simp [hchunk]
  have hfits : before.length + 1 + w.length ≤ chunk.length := by
    simp only [hchunk, length_append, length_cons]
    omega
  have htake : (chunk.drop (before.length + 1)).take w.length = w := by
    have hsplit : chunk = before ++ [UInt8.ofNat w.length] ++ (w ++ rest) := by simp [hchunk]
    rw [hsplit, drop_left' (by simp), take_left]
  have hpointer : ¬ w.length &&& 0xc0 = 0xc0 := by
    have hle : w.length &&& 0xc0 ≤ w.length := and_le_left
    rw [maxLabelLen] at hlen
    omega
  have hstring := unpackLabel_of_le hc (hnat.symm ▸ hfits)
  rw [hnat, htake] at hstring
  rw [nameStep, unpackByte_of_some hc, ok_bind, hnat]
  dsimp only
  rw [if_neg hpointer, if_neg (mt length_eq_zero_iff.mp hw)]
  exact congrArg (· >>= _) hstring

/-- By induction on the labels: a round reads one of them, and the last one the zero. -/
theorem unpackNameLoop_labels {chunk : LuaString} (h : labels.mapM (packString 1) = .ok packed)
    (hlabels : ∀ w ∈ labels, w ≠ [] ∧ w.length ≤ maxLabelLen)
    (hchunk : chunk = before ++ (packed.flatten ++ 0 :: rest)) (t : List LuaString) {rounds : ℕ}
    (hrounds : labels.length < rounds) :
    unpackNameLoop chunk rounds { t, jumpPointer := none, left := before.length + 1 } =
      some (.ok (intercalate [46] (t ++ labels), before.length + packed.flatten.length + 2)) := by
  obtain ⟨rounds, rfl⟩ := exists_eq_add_one_of_ne_zero (Nat.ne_zero_of_lt hrounds)
  induction labels generalizing before packed t rounds with
  | nil =>
    obtain rfl : [] = packed := Except.ok.inj h
    have hc : chunk[before.length]? = some 0 := by simp [hchunk]
    refine unpackNameLoop_done ?_ _
    rw [nameStep, unpackByte_of_some hc, append_nil]
    rfl
  | cons w labels ih =>
    obtain ⟨y, ys, hy, hys, rfl⟩ := of_mapM_cons h
    obtain rfl := packString_label hy
    obtain ⟨hw, hlen⟩ := hlabels w mem_cons_self
    have hfront : chunk = before ++ UInt8.ofNat w.length :: w ++ (ys.flatten ++ 0 :: rest) := by
      simp [hchunk]
    obtain ⟨rounds, rfl⟩ : ∃ k, rounds = k + 1 :=
      exists_eq_add_one_of_ne_zero (Nat.ne_zero_of_lt (lt_of_succ_lt_succ hrounds))
    have hrest := ih hys (fun v hv => hlabels v (mem_cons_of_mem _ hv)) hfront (t ++ [w]) rounds
      (lt_of_succ_lt_succ hrounds)
    have hleft : (before ++ UInt8.ofNat w.length :: w).length + 1 =
        before.length + 2 + w.length := by
      rw [length_append, length_cons]
      omega
    rw [hleft] at hrest
    rw [unpackNameLoop_next (nameStep_label hw hlen hfront t), hrest, append_assoc]
    simp only [length_append, length_cons, flatten_cons, singleton_append]
    exact congrArg (fun next => some (Except.ok (_, next))) (by omega)

theorem packQuestion_eq_ok (h : packQuestion name qtype.code classIn = .ok question) :
    ∃ packed a b, (labelsOf [] name).mapM (packString 1) = .ok packed ∧
      packUInt 2 qtype.code = .ok a ∧ packUInt 2 classIn = .ok b ∧
      question = packed.flatten ++ 0 :: (a ++ b) := by
  obtain ⟨packed, hpacked, hrest⟩ := bind_eq_ok_iff.mp h
  obtain ⟨fixed, hfixed, hpure⟩ := bind_eq_ok_iff.mp hrest
  obtain ⟨a, _, ha, h₁, rfl⟩ := of_mapM_cons hfixed
  obtain ⟨b, _, hb, h₂, rfl⟩ := of_mapM_cons h₁
  obtain rfl := Except.ok.inj h₂
  obtain rfl := Except.ok.inj hpure
  exact ⟨packed, a, b, hpacked, ha, hb, by simp⟩

/-- The question is read back wherever it is, but with the name that its labels make up. -/
theorem unpackQuestion_packQuestion (hname : verifyDomainName name)
    (h : packQuestion name qtype.code classIn = .ok question) {rounds : ℕ}
    (hrounds : (labelsOf [] name).length < rounds) :
    unpackQuestion rounds (before ++ (question ++ rest)) (before.length + 1) =
      some (.ok ({ name := intercalate [46] (labelsOf [] name), atype := qtype.code,
                   qclass := classIn }, before.length + 1 + question.length)) := by
  obtain ⟨packed, a, b, hpacked, ha, hb, rfl⟩ := packQuestion_eq_ok h
  have hlabels : ∀ w ∈ labelsOf [] name, w ≠ [] ∧ w.length ≤ maxLabelLen := fun w hw =>
    ⟨(of_mem_labelsOf not_mem_nil hw).1, (of_decide_eq_true hname).2.2.2 w hw⟩
  obtain ⟨chunk, hchunk⟩ : ∃ chunk, chunk = before ++ (packed.flatten ++ 0 :: (a ++ (b ++ rest))) :=
    ⟨_, rfl⟩
  have hloop := unpackNameLoop_labels hpacked hlabels hchunk [] hrounds
  have h₁ := unpackUInt_packUInt ha (before ++ (packed.flatten ++ [0])) (b ++ rest)
  have h₂ := unpackUInt_packUInt hb (before ++ (packed.flatten ++ 0 :: a)) rest
  simp only [length_append, length_cons, length_nil, length_packUInt ha, length_packUInt hb,
    append_assoc, cons_append, nil_append, Nat.add_assoc, Nat.reduceAdd, ← hchunk] at h₁ h₂ hloop ⊢
  rw [unpackQuestion, unpackName, hloop]
  change (unpacked (unpackUInt 2 chunk _) >>= _) = _
  rw [h₁]
  change (unpacked (unpackUInt 2 chunk _) >>= _) = _
  have hend : 1 + (packed.flatten.length + 5) = packed.flatten.length + 6 := by omega
  rw [h₂, hend]
  rfl

/-- What is read of the header and the question that a server sends back, and when the name is the
one that was asked for. -/
theorem question_sent_back (name : LuaString) (qtype : QType) (t : Header)
    (hname : verifyDomainName name) {header : LuaString} (hheader : packHeader t = .ok header)
    (hquestion : packQuestion name qtype.code classIn = .ok question) (rest : LuaString) :
    unpackHeader (header ++ (question ++ rest)) = .ok (t, dnsHeaderLen + 1) ∧
      (∀ rounds > (labelsOf [] name).length,
        unpackQuestion rounds (header ++ (question ++ rest)) (dnsHeaderLen + 1) =
          some (.ok ({ name := intercalate [46] (labelsOf [] name), atype := qtype.code,
                       qclass := classIn }, dnsHeaderLen + 1 + question.length))) ∧
      (intercalate [46] (labelsOf [] name) = name ↔ [] ∉ name.splitOn 46) := by
  have hlength : header.length = dnsHeaderLen := by
    obtain ⟨a, b, c, d, e, f, ha, hb, hc, hd, he, hf, rfl⟩ := packHeader_eq_ok hheader
    simp [length_packUInt ha, length_packUInt hb, length_packUInt hc, length_packUInt hd,
      length_packUInt he, length_packUInt hf, dnsHeaderLen]
  refine ⟨unpackHeader_packHeader hheader _, fun rounds hrounds => ?_,
    intercalate_labelsOf_iff hname⟩
  rw [← hlength]
  exact unpackQuestion_packQuestion hname hquestion hrounds

/-- The question for `a.b` -/
theorem question_sent_back_ab : unpackQuestion 3 ([0, 1, 1, 0, 0, 1, 0, 0, 0, 0, 0, 0] ++
      ([1, 97, 1, 98, 0, 0, 1, 0, 1] ++ [])) 13 =
    some (.ok ({ name := [97, 46, 98], atype := 1, qclass := 1 }, 22)) :=
  (question_sent_back [97, 46, 98] .a ⟨1, 0x100, 1, 0, 0, 0⟩ (by decide) rfl rfl []).2.1 3
    (by decide)

end Uboss.Framework.Dns
