import Mathlib.Data.Fintype.Card
import Uboss.Math.Transition
import Uboss.Service.Multicastd

/-!
# Packages of the multicast service

One multicastd, its suspended handlers, and the packages of `lua-multicast.c`. A publication sends
the pointer of the package to every member of the channel; a recipient can close the package while
the loop is still sending. Whoever gets a message closes the package once. A member that was retired
gets no message, but the package is counted for it all the same.
-/

namespace Uboss.Service

open Math Function Option List Finset

/-- `struct mc_package`. The fields `bound`, `refer`, `sent` and `freed` are its history: whether
`mc.bind` was called, with which number, how many messages were sent with it, and how many times it
was freed. -/
@[ext]
structure Package where
  reference : ℤ
  bound : Bool
  refer : ℤ
  sent : ℕ
  freed : ℕ
  deriving DecidableEq

namespace Package

/-- A package that `pack` has made. -/
def fresh : Package := ⟨0, false, 0, 0, 0⟩

/-- `mc_bindrefer`. The number is an `int`. -/
def bindrefer (k : Package) (n : ℤ) : Option Package :=
  if k.reference ≠ 0 then none
  else some { k with reference := n.bmod (2 ^ 32), bound := true, refer := n }

/-- `mc_closelocal`. -/
def closelocal (k : Package) : Package :=
  { k with
    reference := k.reference - 1
    freed := if k.reference - 1 ≤ 0 then k.freed + 1 else k.freed }

end Package

/-- The loop at the end of `publish`: the package, and who has not been sent to. -/
structure Sending where
  pack : ℕ
  rest : Finset LocalHandle
  deriving DecidableEq

/-- A service with everything that is under way. Packages have numbers. -/
structure MulticastRun where
  s : Multicastd
  /-- The suspended handlers of `SUB`. -/
  subs : List (LocalHandle × ℕ × SubStage)
  packN : ℕ
  packs : ℕ → Package
  /-- The packages whose `publish` is suspended in `remote_publish`, and the channels. -/
  publishing : ℕ → Option ℕ
  /-- While the loop is running no other handler runs. -/
  sending : Option Sending
  /-- The messages that carry a package and are not closed yet. -/
  messages : List (ℕ × LocalHandle)
  /-- The services whose handles are registered. -/
  alive : Finset LocalHandle

/-- What can happen. -/
inductive MulticastAction
  | new
  | del (c : ℕ)
  | delr (c : ℕ)
  | subr (node : Harbor) (c : ℕ)
  | usubr (node : Harbor) (c : ℕ)
  | sub (source : LocalHandle) (c : ℕ)
  /-- The data center answers the suspended `SUB` number `i`. -/
  | subAddress (i : ℕ)
  /-- What it answers is `nil`, or the call of `SUBR` fails. -/
  | subFails (i : ℕ)
  | subReply (i : ℕ) (gone : Bool)
  | usub (source : LocalHandle) (c : ℕ)
  /-- `publish` with a new package; `waits`: it is suspended in `remote_publish`. -/
  | publish (c : ℕ) (waits : Bool)
  /-- All nodes are served, and `publish` goes on with the local group. -/
  | publishLocal (pack : ℕ)
  | publishFails (pack : ℕ)
  | send (k : LocalHandle)
  | sendEnd
  /-- The recipient of message number `i` closes the package. -/
  | close (i : ℕ)
  | launch (k : LocalHandle)
  | retire (k : LocalHandle)

namespace MulticastRun

/-- The service has just been launched, and there is no subscriber yet. -/
def create (harborId : Harbor) : MulticastRun :=
  ⟨.create harborId, [], 0, fun _ => .fresh, fun _ => none, none, [], ∅⟩

variable (t : MulticastRun)

/-- The members of a channel, none when there is no channel. -/
def members (c : ℕ) : Finset LocalHandle := (t.s.channel c).getD ∅

/-- The package has changed. -/
def setPack (p : ℕ) (k : Package) : MulticastRun := { t with packs := Function.update t.packs p k }

/-- The package is bound and the loop over the group begins. -/
def beginSending (p : ℕ) (k : Package) (group : Finset LocalHandle) : MulticastRun :=
  { t.setPack p k with sending := some ⟨p, group⟩ }

/-- `uboss.redirect` to one member of the group. For a handle that was retired `uboss_send` gives
`-1`, which `lredirect` does not look at. -/
def redirect (p : ℕ) (rest : Finset LocalHandle) (k : LocalHandle) : MulticastRun :=
  if k ∈ t.alive then
    { t.setPack p { t.packs p with sent := (t.packs p).sent + 1 } with
      sending := some ⟨p, rest.erase k⟩
      messages := t.messages ++ [(p, k)] }
  else { t with sending := some ⟨p, rest.erase k⟩ }

/-- `publish` from the line `local group = channel[c]` on, up to the loop. Where `mc.bind` raises,
nothing changes. -/
def publishGroup (p c : ℕ) : MulticastRun :=
  if t.members c = ∅ then
    match (t.packs p).bindrefer 1 with
    | none => t
    | some k => t.setPack p k.closelocal
  else
    match (t.s.channelN c).bind (t.packs p).bindrefer with
    | none => t
    | some k => t.beginSending p k (t.members c)

/-- The package and the channel of the publication whose group is served in a step. -/
def publication : MulticastAction → Option (ℕ × ℕ)
  | .publish c false => some (t.packN, c)
  | .publishLocal p => (t.publishing p).map fun c => (p, c)
  | _ => none

/-- A handler that is not suspended while it runs. -/
def withTables (s : Multicastd) : MulticastRun := { t with s }

/-- The steps of the service while no loop is running. -/
def handle : MulticastAction → Option MulticastRun
  | .new => t.s.new.map fun r => t.withTables r.2
  | .del c => some (t.withTables (if owner c = t.s.harborId then (t.s.del c).1 else t.s))
  | .delr c => some (t.withTables (t.s.delr c))
  | .subr node c => some (t.withTables (((t.s.subr node c).map Prod.snd).getD t.s))
  | .usubr node c => some (t.withTables ((t.s.usubr node c).getD t.s))
  | .sub source c =>
    if t.s.mustCall c then some { t with subs := t.subs ++ [(source, c, .address)] }
    else some (t.withTables (t.s.join source c).1)
  | .subAddress i =>
    match t.subs[i]? with
    | some (source, c, .address) => some { t with subs := t.subs.set i (source, c, .call) }
    | _ => none
  | .subFails i => if i < t.subs.length then some { t with subs := t.subs.eraseIdx i } else none
  | .subReply i gone =>
    match t.subs[i]? with
    | some (source, c, .call) =>
      some { t with subs := t.subs.eraseIdx i, s := (t.s.subReply source c gone).1 }
    | _ => none
  | .usub source c => some (t.withTables (t.s.usub source c).1)
  | .publish c false => some { t.publishGroup t.packN c with packN := t.packN + 1 }
  | .publish c true =>
    if (t.s.channelRemote c).isSome then
      some { t with
        packN := t.packN + 1
        publishing := Function.update t.publishing t.packN (some c) }
    else none
  | .publishLocal p =>
    (t.publishing p).map fun c =>
      { t.publishGroup p c with publishing := Function.update t.publishing p none }
  | .publishFails p =>
    (t.publishing p).map fun _ => { t with publishing := Function.update t.publishing p none }
  | _ => none

/-- One step of the service or of a recipient. Services come and go also while the loop is
running. -/
def step : MulticastAction → Option MulticastRun
  | .send k =>
    match t.sending with
    | some ⟨p, rest⟩ =>
      if k ∈ rest then some (t.redirect p rest k) else none
    | none => none
  | .sendEnd =>
    match t.sending with
    | some ⟨_, rest⟩ => if rest = ∅ then some { t with sending := none } else none
    | none => none
  | .close i =>
    (t.messages[i]?).map fun m =>
      { t.setPack m.1 (t.packs m.1).closelocal with messages := t.messages.eraseIdx i }
  | .launch k => some { t with alive := insert k t.alive }
  | .retire k => some { t with alive := t.alive.erase k }
  | a => if t.sending = none then t.handle a else none

/-! ### How a package is counted -/

/-- The messages that carry a package. -/
def carriers (p : ℕ) : ℕ := t.messages.countP fun m => m.1 = p

/-- The messages with a package that the loop has still to send. -/
def rest (p : ℕ) : ℕ :=
  match t.sending with
  | some ⟨q, rest⟩ => if q = p then rest.card else 0
  | none => 0

/-- A package with so many messages that carry it, and so many that will be sent. -/
inductive Kept (k : Package) (carriers rest : ℕ) : Prop
  | fresh : k = .fresh → carriers = 0 → rest = 0 → Kept k carriers rest
  | shared : k.bound = true → k.freed = 0 → k.reference = carriers + rest → 0 < carriers + rest →
      k.refer = k.sent + rest → Kept k carriers rest
  | freed : k.bound = true → k.freed = 1 → carriers = 0 → rest = 0 →
      (k.refer = k.sent ∨ k.refer = 1 ∧ k.sent = 0) → Kept k carriers rest

/-- Every package is counted, and one that is not sent yet is as it was made. -/
structure Inv : Prop where
  counted : t.s.Counted
  kept : ∀ p, Kept (t.packs p) (t.carriers p) (t.rest p)
  unborn : ∀ p, t.packN ≤ p → t.packs p = .fresh ∧ t.publishing p = none
  waiting : ∀ p, t.publishing p ≠ none → t.packs p = .fresh

/-- A member that is sent to is alive. -/
def Attended (t : MulticastRun) : MulticastAction → Prop
  | .send k => k ∈ t.alive
  | _ => True

instance (t : MulticastRun) : DecidablePred t.Attended
  | .send k => inferInstanceAs (Decidable (k ∈ t.alive))
  | .new | .del _ | .delr _ | .subr _ _ | .usubr _ _ | .sub _ _ | .subAddress _ | .subFails _
  | .subReply _ _ | .usub _ _ | .publish _ _ | .publishLocal _ | .publishFails _ | .sendEnd
  | .close _ | .launch _ | .retire _ => .isTrue trivial

variable {t}

theorem kept_fresh {k : Package} {n m : ℕ} (h : Kept k n m) (hk : k = .fresh) : n = 0 ∧ m = 0 := by
  cases h with
  | fresh _ hn hm => exact ⟨hn, hm⟩
  | shared hbound => simp [hk, Package.fresh] at hbound
  | freed hbound => simp [hk, Package.fresh] at hbound

@[simp] theorem carriers_setPack (p q : ℕ) (k : Package) :
    (t.setPack p k).carriers q = t.carriers q := rfl

@[simp] theorem rest_setPack (p q : ℕ) (k : Package) : (t.setPack p k).rest q = t.rest q := rfl

@[simp] theorem carriers_beginSending (p q : ℕ) (k : Package) (group : Finset LocalHandle) :
    (t.beginSending p k group).carriers q = t.carriers q := rfl

@[simp] theorem rest_beginSending (p q : ℕ) (k : Package) (group : Finset LocalHandle) :
    (t.beginSending p k group).rest q = if p = q then group.card else 0 := rfl

section

variable {group : Finset LocalHandle} {k : LocalHandle} (hk : k ∈ t.alive)
include hk

theorem redirect_eq {p : ℕ} : t.redirect p group k =
      { t.setPack p { t.packs p with sent := (t.packs p).sent + 1 } with
        sending := some ⟨p, group.erase k⟩
        messages := t.messages ++ [(p, k)] } :=
  if_pos hk

theorem carriers_redirect {p q : ℕ} :
    (t.redirect p group k).carriers q = t.carriers q + if p = q then 1 else 0 := by
  simp [redirect_eq hk, carriers, countP_append]

theorem rest_redirect {p q : ℕ} :
    (t.redirect p group k).rest q = if p = q then (group.erase k).card else 0 := by
  rw [redirect_eq hk]
  rfl

end

theorem card_lt (group : Finset LocalHandle) : (group.card : ℤ).bmod (2 ^ 32) = group.card := by
  have hcard : group.card ≤ 2 ^ 24 := by simpa using card_le_univ group
  apply Int.bmod_eq_of_le
  · omega
  · omega

theorem publishGroup_of_empty {p c : ℕ} (hp : t.packs p = .fresh) (hc : t.members c = ∅) :
    t.publishGroup p c = t.setPack p ⟨0, true, 1, 0, 1⟩ := by
  unfold publishGroup
  rw [if_pos hc, hp]
  rfl

theorem publishGroup_of_members {p c : ℕ} (hcounted : t.s.Counted) (hp : t.packs p = .fresh)
    (hc : t.members c ≠ ∅) :
    t.publishGroup p c =
      t.beginSending p ⟨(t.members c).card, true, (t.members c).card, 0, 0⟩ (t.members c) := by
  obtain ⟨group, hgroup⟩ : ∃ group, t.s.channel c = some group := by
    cases h : t.s.channel c with
    | none => exact absurd (by simp [members, h]) hc
    | some group => exact ⟨group, rfl⟩
  have hmem : t.members c = group := by simp [members, hgroup]
  have hn : t.s.channelN c = some (group.card : ℤ) := by rw [hcounted c, hgroup]; rfl
  have hbind : Package.fresh.bindrefer (group.card : ℤ) =
      some ⟨group.card, true, group.card, 0, 0⟩ := by
    unfold Package.bindrefer
    rw [if_neg (by simp [Package.fresh]), card_lt]
    rfl
  unfold publishGroup
  rw [if_neg hc, hn, hp, bind_some, hbind, hmem]

namespace Inv

theorem create (harborId : Harbor) : Inv (create harborId) where
  counted := Multicastd.counted_create harborId
  kept _ := .fresh rfl rfl rfl
  unborn _ _ := ⟨rfl, rfl⟩
  waiting _ _ := rfl

variable (h : Inv t)
variable {a : MulticastAction} {t' : MulticastRun}

include h

theorem withTables {s : Multicastd} (hs : s.Counted) : Inv (t.withTables s) :=
  ⟨hs, h.kept, h.unborn, h.waiting⟩

theorem publishGroup {p c : ℕ} (hs : t.sending = none) (hp : t.packs p = .fresh) :
    (∀ q, Kept ((t.publishGroup p c).packs q) ((t.publishGroup p c).carriers q)
      ((t.publishGroup p c).rest q)) ∧
    (t.publishGroup p c).s = t.s ∧ (t.publishGroup p c).packN = t.packN ∧
      (t.publishGroup p c).publishing = t.publishing ∧
      ∀ q, q ≠ p → (t.publishGroup p c).packs q = t.packs q := by
  have hrest : ∀ q, t.rest q = 0 := fun q => by simp [rest, hs]
  have hcarriers : t.carriers p = 0 := (kept_fresh (h.kept p) hp).1
  have hother : ∀ q, q ≠ p → ∀ k, (t.setPack p k).packs q = t.packs q :=
    fun q hq k => update_of_ne hq _ _
  by_cases hc : t.members c = ∅
  · rw [publishGroup_of_empty hp hc]
    refine ⟨fun q => ?_, rfl, rfl, rfl, fun q hq => hother q hq _⟩
    rw [rest_setPack, carriers_setPack]
    by_cases hq : q = p
    · subst hq
      refine .freed ?_ ?_ hcarriers (hrest q) (.inr ?_) <;> simp [setPack]
    · rw [hother q hq]
      exact h.kept q
  · rw [publishGroup_of_members h.counted hp hc]
    refine ⟨fun q => ?_, rfl, rfl, rfl, fun q hq => hother q hq _⟩
    rw [rest_beginSending, carriers_beginSending]
    by_cases hq : q = p
    · subst hq
      have hpos : 0 < (t.members c).card := card_pos.mpr (nonempty_iff_ne_empty.mpr hc)
      rw [if_pos rfl, hcarriers]
      refine .shared ?_ ?_ ?_ ?_ ?_ <;> simp [beginSending, setPack, hpos]
    · have hkept := h.kept q
      rw [hrest q] at hkept
      rw [if_neg (Ne.symm hq)]
      change Kept ((t.setPack p _).packs q) _ _
      rw [hother q hq]
      exact hkept

theorem handle (hs : t.sending = none) (hstep : t.handle a = some t') : Inv t' := by
  cases a with
  | new =>
    obtain ⟨r, hr, rfl⟩ := map_eq_some_iff.mp hstep
    exact h.withTables (h.counted.new hr)
  | del c =>
    cases hstep
    apply h.withTables
    split_ifs
    · exact h.counted.del
    · exact h.counted
  | delr c =>
    cases hstep
    exact h.withTables h.counted.delr
  | subr node c =>
    cases hstep
    apply h.withTables
    cases hsubr : t.s.subr node c with
    | none => exact h.counted
    | some r => exact h.counted.subr hsubr
  | usubr node c =>
    cases hstep
    apply h.withTables
    cases husubr : t.s.usubr node c with
    | none => exact h.counted
    | some s => exact h.counted.usubr husubr
  | sub source c =>
    simp only [MulticastRun.handle] at hstep
    split_ifs at hstep <;> cases hstep
    · exact ⟨h.counted, h.kept, h.unborn, h.waiting⟩
    · exact h.withTables h.counted.join
  | subAddress i =>
    simp only [MulticastRun.handle] at hstep
    split at hstep <;> cases hstep
    exact ⟨h.counted, h.kept, h.unborn, h.waiting⟩
  | subFails i =>
    simp only [MulticastRun.handle] at hstep
    split_ifs at hstep
    cases hstep
    exact ⟨h.counted, h.kept, h.unborn, h.waiting⟩
  | subReply i gone =>
    simp only [MulticastRun.handle] at hstep
    split at hstep <;> cases hstep
    exact ⟨h.counted.subReply, h.kept, h.unborn, h.waiting⟩
  | usub source c =>
    cases hstep
    exact h.withTables h.counted.usub
  | publish c waits =>
    obtain ⟨hpack, hpub⟩ := h.unborn t.packN le_rfl
    cases waits with
    | false =>
      cases hstep
      obtain ⟨hkept, htables, -, hpublishing, hother⟩ := h.publishGroup (c := c) hs hpack
      refine ⟨?_, hkept, fun q hq => ?_, fun q hq => ?_⟩
      · change (t.publishGroup t.packN c).s.Counted
        rw [htables]
        exact h.counted
      · have hlt : t.packN + 1 ≤ q := hq
        refine ⟨(hother q (by omega)).trans (h.unborn q (by omega)).1, ?_⟩
        exact (congrFun hpublishing q).trans (h.unborn q (by omega)).2
      · have hq' : t.publishing q ≠ none := fun h' => hq ((congrFun hpublishing q).trans h')
        have hne : q ≠ t.packN := by
          rintro rfl
          exact hq' hpub
        exact (hother q hne).trans (h.waiting q hq')
    | true =>
      simp only [MulticastRun.handle] at hstep
      split_ifs at hstep
      cases hstep
      refine ⟨h.counted, h.kept, fun q hq => ?_, fun q hq => ?_⟩
      · have hlt : t.packN + 1 ≤ q := hq
        exact ⟨(h.unborn q (by omega)).1,
          (update_of_ne (by omega) _ _).trans (h.unborn q (by omega)).2⟩
      · by_cases hqp : q = t.packN
        · subst hqp
          exact hpack
        · exact h.waiting q fun h' => hq ((update_of_ne hqp _ _).trans h')
  | publishLocal p =>
    obtain ⟨c, hc, rfl⟩ := map_eq_some_iff.mp hstep
    obtain ⟨hkept, htables, hpackN, -, hother⟩ :=
      h.publishGroup (c := c) hs (h.waiting p (by rw [hc]; simp))
    have hborn : p < t.packN := by
      by_contra hle
      rw [(h.unborn p (by omega)).2] at hc
      cases hc
    refine ⟨?_, hkept, fun q hq => ?_, fun q hq => ?_⟩
    · change (t.publishGroup p c).s.Counted
      rw [htables]
      exact h.counted
    · have hle : t.packN ≤ q := hpackN ▸ hq
      refine ⟨(hother q (by omega)).trans (h.unborn q hle).1, ?_⟩
      exact (update_of_ne (by omega) _ _).trans (h.unborn q hle).2
    · have hqp : q ≠ p := by
        rintro rfl
        exact hq (update_self ..)
      refine (hother q hqp).trans (h.waiting q fun h' => hq ?_)
      exact (update_of_ne hqp _ _).trans h'
  | publishFails p =>
    obtain ⟨c, hc, rfl⟩ := map_eq_some_iff.mp hstep
    refine ⟨h.counted, h.kept, fun q hq => ⟨(h.unborn q hq).1, ?_⟩, fun q hq => ?_⟩
    · by_cases hqp : q = p
      · subst hqp
        exact update_self ..
      · exact (update_of_ne hqp _ _).trans (h.unborn q hq).2
    · have hqp : q ≠ p := by
        rintro rfl
        exact hq (update_self ..)
      exact h.waiting q fun h' => hq ((update_of_ne hqp _ _).trans h')
  | send | sendEnd | close | launch | retire => cases hstep

theorem send {k : LocalHandle} (halive : k ∈ t.alive) (hstep : t.step (.send k) = some t') :
    Inv t' := by
  simp only [step] at hstep
  split at hstep
  · rename_i p group hsending
    split_ifs at hstep with hk
    cases hstep
    have hrest : t.rest p = group.card := by simp [rest, hsending]
    have hborn : ∀ q, t.packs q = .fresh → q ≠ p := by
      rintro q hq rfl
      have hzero := (kept_fresh (h.kept q) hq).2
      have hpos := card_pos.mpr ⟨k, hk⟩
      omega
    have hother : ∀ q, q ≠ p → ∀ k, (t.setPack p k).packs q = t.packs q :=
      fun q hq k => update_of_ne hq _ _
    have hpacks : (t.redirect p group k).packs =
        (t.setPack p { t.packs p with sent := (t.packs p).sent + 1 }).packs := by
      rw [redirect_eq halive]
    refine ⟨?_, fun q => ?_, fun q hq => ?_, fun q hq => ?_⟩
    · rw [redirect_eq halive]
      exact h.counted
    · have hkept := h.kept q
      by_cases hqp : q = p
      · subst hqp
        rw [hrest] at hkept
        have hpos := card_pos.mpr ⟨k, hk⟩
        have herase := card_erase_of_mem hk
        rw [carriers_redirect halive, rest_redirect halive, if_pos rfl, if_pos rfl, herase]
        cases hkept with
        | fresh _ _ hzero => omega
        | freed _ _ _ hzero => omega
        | shared hbound hfreed href hpos' hrefer =>
          have hpack : (t.redirect q group k).packs q =
              { t.packs q with sent := (t.packs q).sent + 1 } := by
            rw [hpacks]
            exact update_self ..
          rw [hpack]
          refine .shared hbound hfreed ?_ (by omega) ?_
          · change (t.packs q).reference = _
            omega
          · change (t.packs q).refer = ((t.packs q).sent + 1 : ℕ) + _
            omega
      · have hrest' : t.rest q = 0 := by simp [rest, hsending, Ne.symm hqp]
        rw [hrest'] at hkept
        rw [carriers_redirect halive, rest_redirect halive, if_neg (Ne.symm hqp),
          if_neg (Ne.symm hqp), hpacks, hother q hqp]
        exact hkept
    · rw [redirect_eq halive] at hq ⊢
      obtain ⟨hfresh, hpub⟩ := h.unborn q hq
      exact ⟨(hother q (hborn q hfresh) _).trans hfresh, hpub⟩
    · rw [redirect_eq halive] at hq ⊢
      have hfresh := h.waiting q hq
      exact (hother q (hborn q hfresh) _).trans hfresh
  · cases hstep

theorem sendEnd (hstep : t.step .sendEnd = some t') : Inv t' := by
  simp only [step] at hstep
  split at hstep
  · rename_i p group hsending
    split_ifs at hstep with hempty
    cases hstep
    refine ⟨h.counted, fun q => ?_, h.unborn, h.waiting⟩
    have hrest : t.rest q = 0 := by simp [rest, hsending, hempty]
    have hkept := h.kept q
    rw [hrest] at hkept
    exact hkept
  · cases hstep

theorem close {i : ℕ} (hstep : t.step (.close i) = some t') : Inv t' := by
  obtain ⟨⟨p, k⟩, hm, rfl⟩ := map_eq_some_iff.mp hstep
  obtain ⟨hi, hget⟩ := List.getElem?_eq_some_iff.mp hm
  have hcar : ∀ q, t.carriers q =
      (t.messages.eraseIdx i).countP (fun m => m.1 = q) + if p = q then 1 else 0 := by
    intro q
    have hperm := getElem_cons_eraseIdx_perm hi
    rw [hget] at hperm
    rw [carriers, ← hperm.countP_eq, countP_cons]
    simp
  have hborn : ∀ q, t.packs q = .fresh → q ≠ p := by
    rintro q hq rfl
    have hzero := (kept_fresh (h.kept q) hq).1
    rw [hcar, if_pos rfl] at hzero
    omega
  have hother : ∀ q, q ≠ p → ∀ k, (t.setPack p k).packs q = t.packs q :=
    fun q hq k => update_of_ne hq _ _
  refine ⟨h.counted, fun q => ?_, fun q hq => ?_, fun q hq => ?_⟩
  · have hkept := h.kept q
    rw [hcar q] at hkept
    change Kept ((t.setPack p _).packs q) ((t.messages.eraseIdx i).countP fun m => m.1 = q)
      (t.rest q)
    by_cases hqp : q = p
    · subst hqp
      rw [if_pos rfl] at hkept
      cases hkept with
      | fresh _ hzero => omega
      | freed _ _ hzero => omega
      | shared hbound hfreed href hpos hrefer =>
        have hpack : (t.setPack q (t.packs q).closelocal).packs q = (t.packs q).closelocal :=
          update_self ..
        rw [hpack]
        -- The last message: the counter is one, and the package is freed.
        by_cases hlast : (t.messages.eraseIdx i).countP (fun m => m.1 = q) + t.rest q = 0
        · have hle : (t.packs q).reference - 1 ≤ 0 := by omega
          refine .freed hbound ?_ (by omega) (by omega) (.inl ?_)
          · simp only [Package.closelocal, if_pos hle]
            omega
          · change (t.packs q).refer = (t.packs q).sent
            omega
        · have hle : ¬ (t.packs q).reference - 1 ≤ 0 := by omega
          refine .shared hbound ?_ ?_ (by omega) hrefer
          · simp only [Package.closelocal, if_neg hle]
            exact hfreed
          · change (t.packs q).reference - 1 = _
            omega
    · rw [if_neg (Ne.symm hqp)] at hkept
      rw [hother q hqp]
      exact hkept
  · obtain ⟨hfresh, hpub⟩ := h.unborn q hq
    exact ⟨(hother q (hborn q hfresh) _).trans hfresh, hpub⟩
  · have hfresh := h.waiting q hq
    exact (hother q (hborn q hfresh) _).trans hfresh

/-- Every step keeps every package counted. -/
theorem step (ha : t.Attended a) (hstep : t.step a = some t') : Inv t' := by
  cases a with
  | send k => exact h.send ha hstep
  | sendEnd => exact h.sendEnd hstep
  | close i => exact h.close hstep
  | launch | retire =>
    cases hstep
    exact ⟨h.counted, h.kept, h.unborn, h.waiting⟩
  | _ =>
    simp only [MulticastRun.step] at hstep
    split_ifs at hstep with hs
    exact h.handle hs hstep

end Inv

/-! ### Runs -/

theorem publication_spec {a : MulticastAction} {t' : MulticastRun} {p c : ℕ} (h : Inv t)
    (hstep : t.step a = some t') (hp : t.publication a = some (p, c)) :
    (t.members c = ∅ → (t'.packs p).freed = 1 ∧ t'.sending = none ∧ t'.messages = t.messages) ∧
    (t.members c ≠ ∅ → (t'.packs p).reference = (t.members c).card ∧ (t'.packs p).freed = 0 ∧
        t'.sending = some ⟨p, t.members c⟩ ∧ t'.messages = t.messages) := by
  obtain ⟨hsending, hfresh, hpacks, hsend, hmessages⟩ : t.sending = none ∧ t.packs p = .fresh ∧
      t'.packs = (t.publishGroup p c).packs ∧ t'.sending = (t.publishGroup p c).sending ∧
      t'.messages = (t.publishGroup p c).messages := by
    cases a with
    | publish c' waits =>
      cases waits with
      | true => cases hp
      | false =>
        cases hp
        simp only [step] at hstep
        split_ifs at hstep with hs
        cases hstep
        exact ⟨hs, (h.unborn _ le_rfl).1, rfl, rfl, rfl⟩
    | publishLocal q =>
      obtain ⟨c', hc, heq⟩ := map_eq_some_iff.mp hp
      cases heq
      simp only [step] at hstep
      split_ifs at hstep with hs
      obtain ⟨c'', hc', rfl⟩ := map_eq_some_iff.mp hstep
      rw [hc] at hc'
      cases hc'
      exact ⟨hs, h.waiting p (by rw [hc]; simp), rfl, rfl, rfl⟩
    | _ => cases hp
  rw [hpacks, hsend, hmessages]
  constructor
  · intro hc
    rw [publishGroup_of_empty hfresh hc]
    exact ⟨by simp [setPack], hsending, rfl⟩
  · intro hc
    rw [publishGroup_of_members h.counted hfresh hc]
    exact ⟨by simp [beginSending, setPack], by simp [beginSending, setPack], rfl, rfl⟩

/-- In every run in which the members that are sent to are alive: the number of a channel is that of
its members. A publication without local
members frees the package at once; another one sets the counter to the number of the members, to
which the loop then sends. When the loop is at its end, the number bound is that of the messages
sent. As long as there is, or will be, a message with the package, it is not freed and the counter
is their number; when there is none any more, it has been freed once. -/
theorem packages_counted {harborId : Harbor} {w : List MulticastAction}
    (h : Run step Attended (.create harborId) w t) :
    (∀ c, t.s.channelN c = (t.s.channel c).map fun group => (group.card : ℤ)) ∧
    (∀ a t' p c, t.step a = some t' → t.publication a = some (p, c) → (t.members c = ∅ →
        (t'.packs p).freed = 1 ∧ t'.sending = none ∧ t'.messages = t.messages) ∧
      (t.members c ≠ ∅ → (t'.packs p).reference = (t.members c).card ∧ (t'.packs p).freed = 0 ∧
          t'.sending = some ⟨p, t.members c⟩ ∧ t'.messages = t.messages)) ∧
    (∀ p, 0 < (t.packs p).sent → t.rest p = 0 → (t.packs p).refer = (t.packs p).sent) ∧
    (∀ p, 0 < t.carriers p + t.rest p →
      (t.packs p).freed = 0 ∧ (t.packs p).reference = t.carriers p + t.rest p) ∧
    (∀ p, (t.packs p).bound = true → t.carriers p + t.rest p = 0 → (t.packs p).freed = 1) := by
  have hinv : Inv t := h.invariant (Inv.create harborId) fun ha hstep hinv => hinv.step ha hstep
  refine ⟨hinv.counted, fun a t' p c hstep hp => publication_spec hinv hstep hp,
    fun p hsent hrest => ?_, fun p hpos => ?_, fun p hbound hzero => ?_⟩
  · cases hinv.kept p with
    | fresh hfresh =>
      rw [hfresh] at hsent
      cases hsent
    | shared _ _ _ _ hrefer => omega
    | freed _ _ _ _ hrefer => omega
  · cases hinv.kept p with
    | fresh _ _ _ => omega
    | shared _ hfreed href => exact ⟨hfreed, href⟩
    | freed _ _ _ _ => omega
  · cases hinv.kept p with
    | fresh hfresh =>
      rw [hfresh] at hbound
      cases hbound
    | shared _ _ _ _ => omega
    | freed _ hfreed => exact hfreed

/-- Two services subscribe a channel and get a package; the first closes it, and is retired, before
the second gets it. -/
theorem packages_counted_two : ∃ t, exec (guarded step Attended) (create 1)
        [.launch 7, .launch 8, .new, .sub 7 1, .sub 8 1, .publish 1 false, .send 7, .close 0,
          .retire 7, .send 8, .sendEnd, .close 0] = some t ∧
      (t.packs 0).refer = 2 ∧ (t.packs 0).freed = 1 := by
  obtain ⟨t, ht, hrefer, hbound, hzero⟩ : ∃ t, exec (guarded step Attended) (create 1)
      [.launch 7, .launch 8, .new, .sub 7 1, .sub 8 1, .publish 1 false, .send 7, .close 0,
        .retire 7, .send 8, .sendEnd, .close 0] = some t ∧ (t.packs 0).refer = 2 ∧
      (t.packs 0).bound = true ∧ t.carriers 0 + t.rest 0 = 0 := ⟨_, rfl, rfl, rfl, rfl⟩
  exact ⟨t, ht, hrefer, (packages_counted (run_of_exec_guarded ht)).2.2.2.2 0 hbound hzero⟩

/-- Two services subscribe a channel, and the second is retired. The package is bound to two
messages, one is sent and closed, and the package is never freed. -/
theorem package_leaked : ∃ t, exec step (create 1)
        [.launch 7, .launch 8, .new, .sub 7 1, .sub 8 1, .retire 8, .publish 1 false, .send 7,
          .send 8, .sendEnd, .close 0] = some t ∧
      (t.packs 0).refer = 2 ∧ (t.packs 0).sent = 1 ∧ t.messages = [] ∧ t.sending = none ∧
      (t.packs 0).bound = true ∧ (t.packs 0).freed = 0 :=
  ⟨_, rfl, rfl, rfl, rfl, rfl, rfl, rfl⟩

end MulticastRun

end Uboss.Service
