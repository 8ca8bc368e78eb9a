import Mathlib.Algebra.Order.Ring.Int
import Mathlib.Algebra.Order.Ring.Nat
import Mathlib.Data.Finset.Card

/-!
# The multicast service

The tables of `multicastd.lua`, and what its commands do with them between two points at which a
handler can be suspended. A channel belongs to the node that the low 8 bits of its number name.
-/

namespace Uboss.Service

open Function Option Finset

/-- The number of a node. -/
abbrev Harbor := Fin 256

/-- A service of the own node: its handle without the number of the node. -/
abbrev LocalHandle := Fin (2 ^ 24)

/-- `c % 256`. -/
def owner (c : ℕ) : Harbor := ⟨c % 256, Nat.mod_lt c (by omega)⟩

/-- `mc.nextid`. -/
def nextid (id : ℕ) : ℕ := (id + 256) % 2 ^ 32

theorem owner_nextid (id : ℕ) : owner (nextid id) = owner id := by
  ext
  change (id + 256) % 2 ^ 32 % 256 = id % 256
  omega

/-- Where a handler of `SUB` is suspended. -/
inductive SubStage
  /-- In `node_address[node]`, which asks the data center. -/
  | address
  /-- In the call of `SUBR`. -/
  | call
  deriving DecidableEq

/-- The tables of `multicastd.lua`. -/
structure Multicastd where
  harborId : Harbor
  channel : ℕ → Option (Finset LocalHandle)
  channelN : ℕ → Option ℤ
  channelRemote : ℕ → Option (Finset Harbor)
  channelId : ℕ

namespace Multicastd

def create (harborId : Harbor) : Multicastd :=
  ⟨harborId, fun _ => none, fun _ => none, fun _ => none, harborId.val⟩

variable (s : Multicastd)

/-- `while channel[channel_id] do`. There are `2 ^ 24` numbers; when all are in use the loop does
not end. -/
def freeId : ℕ → ℕ → Option ℕ
  | 0, _ => none
  | fuel + 1, id => if (s.channel id).isSome then freeId fuel (nextid id) else some id

/-- `command.NEW`: the number of the new channel. -/
def new : Option (ℕ × Multicastd) := (s.freeId (2 ^ 24) s.channelId).map fun id =>
    (id, { s with
      channel := Function.update s.channel id (some ∅)
      channelN := Function.update s.channelN id (some 0)
      channelId := nextid id })

/-- `command.DELR`. -/
def delr (c : ℕ) : Multicastd :=
  { s with
    channel := Function.update s.channel c none
    channelN := Function.update s.channelN c none }

/-- `command.DEL` of an own channel, up to the loop that sends `DELR` to the nodes of `remote`. -/
def del (c : ℕ) : Multicastd × Option (Finset Harbor) :=
  ({ s.delr c with channelRemote := Function.update s.channelRemote c none }, s.channelRemote c)

/-- How a part of a command ends, other than by a return. -/
inductive Ended
  | done
  /-- An assertion fails, or `nil` is used as a number. -/
  | raised
  /-- `USUBR` is to be sent to the owner of the channel. -/
  | usubr
  deriving DecidableEq

/-- `command.SUBR`: whether the channel does not exist. `none`: the assertion fails. -/
def subr (node : Harbor) (c : ℕ) : Option (Bool × Multicastd) :=
  if (s.channel c).isNone then some (true, s)
  else if node ≠ s.harborId ∧ owner c = s.harborId then
    some (false, { s with
      channelRemote :=
        Function.update s.channelRemote c (some (insert node ((s.channelRemote c).getD ∅))) })
  else none

/-- `command.USUBR`. `none`: an assertion fails. -/
def usubr (node : Harbor) (c : ℕ) : Option Multicastd :=
  if node = s.harborId then none
  else (s.channelRemote c).map fun group =>
    { s with channelRemote := Function.update s.channelRemote c (some (group.erase node)) }

/-- `command.SUB` has to ask the owner first. -/
def mustCall (c : ℕ) : Prop := owner c ≠ s.harborId ∧ s.channel c = none

instance (c : ℕ) : Decidable (s.mustCall c) := inferInstanceAs (Decidable (_ ∧ _))

/-- The end of `command.SUB`. -/
def join (source : LocalHandle) (c : ℕ) : Multicastd × Ended :=
  match s.channel c with
  | none => (s, .done)
  | some group =>
    if source ∈ group then (s, .done)
    else
      match s.channelN c with
      | none => (s, .raised)
      | some n =>
        ({ s with
          channel := Function.update s.channel c (some (insert source group))
          channelN := Function.update s.channelN c (some (n + 1)) }, .done)

/-- The double check of `command.SUB`, after the call. -/
def ensure (c : ℕ) : Multicastd :=
  if (s.channel c).isNone then
    { s with
      channel := Function.update s.channel c (some ∅)
      channelN := Function.update s.channelN c (some 0) }
  else s

/-- `command.SUB`, when `SUBR` was answered. -/
def subReply (source : LocalHandle) (c : ℕ) (gone : Bool) : Multicastd × Ended :=
  if gone then (s, .done) else (s.ensure c).join source c

/-- `command.USUB`, up to the message to the owner. -/
def usub (source : LocalHandle) (c : ℕ) : Multicastd × Ended :=
  match s.channel c with
  | none => (s, .raised)
  | some group =>
    if source ∈ group then
      match s.channelN c with
      | none =>
        ({ s with channel := Function.update s.channel c (some (group.erase source)) }, .raised)
      | some n =>
        if n - 1 = 0 ∧ owner c ≠ s.harborId then (s.delr c, .usubr)
        else
          ({ s with
            channel := Function.update s.channel c (some (group.erase source))
            channelN := Function.update s.channelN c (some (n - 1)) }, .done)
    else (s, .done)

/-! ### What the parts of `SUB` leave as it is -/

section Frame

variable {s} {source : LocalHandle} {c : ℕ}

variable (s source c) in
theorem join_frame :
    (s.join source c).1.harborId = s.harborId ∧ (s.join source c).1.channelId = s.channelId ∧
      (s.join source c).1.channelRemote = s.channelRemote ∧
      ∀ c', (s.join source c).1.channel c' = none ↔ s.channel c' = none := by
  unfold join
  cases hc : s.channel c with
  | none => exact ⟨rfl, rfl, rfl, fun _ => Iff.rfl⟩
  | some group =>
    dsimp only
    split_ifs
    · exact ⟨rfl, rfl, rfl, fun _ => Iff.rfl⟩
    · cases s.channelN c with
      | none => exact ⟨rfl, rfl, rfl, fun _ => Iff.rfl⟩
      | some n =>
        refine ⟨rfl, rfl, rfl, fun c' => ?_⟩
        by_cases h : c' = c
        · subst h
          simp [hc]
        · dsimp only
          rw [update_of_ne h]

variable (s c) in
theorem ensure_frame : (s.ensure c).harborId = s.harborId ∧ (s.ensure c).channelId = s.channelId ∧
      (s.ensure c).channelRemote = s.channelRemote ∧
      ∀ c', c' ≠ c → ((s.ensure c).channel c' = none ↔ s.channel c' = none) := by
  unfold ensure
  split_ifs
  · refine ⟨rfl, rfl, rfl, fun c' h => ?_⟩
    dsimp only
    rw [update_of_ne h]
  · exact ⟨rfl, rfl, rfl, fun _ _ => Iff.rfl⟩

variable (s source c) in
theorem subReply_frame (gone : Bool) : (s.subReply source c gone).1.harborId = s.harborId ∧
      (s.subReply source c gone).1.channelId = s.channelId ∧
      (s.subReply source c gone).1.channelRemote = s.channelRemote ∧
      ∀ c', (s.subReply source c gone).1.channel c' ≠ none →
        s.channel c' ≠ none ∨ c' = c ∧ gone = false := by
  unfold subReply
  split_ifs with hgone
  · exact ⟨rfl, rfl, rfl, fun _ h => .inl h⟩
  · obtain ⟨hjharbor, hjid, hjremote, hjchannel⟩ := join_frame (s.ensure c) source c
    obtain ⟨heharbor, heid, heremote, hechannel⟩ := ensure_frame s c
    refine ⟨hjharbor.trans heharbor, hjid.trans heid, hjremote.trans heremote, fun c' h => ?_⟩
    by_cases hc : c' = c
    · exact .inr ⟨hc, by simpa using hgone⟩
    · exact .inl fun hnone => h ((hjchannel c').mpr ((hechannel c' hc).mpr hnone))

variable (s source c) in
/-- `USUB` removes a channel only when its last member leaves and its owner is another node. -/
theorem usub_frame :
    (s.usub source c).1.harborId = s.harborId ∧ (s.usub source c).1.channelId = s.channelId ∧
      (s.usub source c).1.channelRemote = s.channelRemote ∧
      ((s.usub source c).2 ≠ .usubr →
        ∀ c', (s.usub source c).1.channel c' ≠ none → s.channel c' ≠ none) ∧
      ((s.usub source c).2 = .usubr →
        owner c ≠ s.harborId ∧ s.channelN c = some 1 ∧ (∃ group ∈ s.channel c, source ∈ group) ∧
          (s.usub source c).1.channel = update s.channel c none) := by
  unfold usub
  cases hc : s.channel c with
  | none => exact ⟨rfl, rfl, rfl, fun _ _ h => h, fun h => absurd h (by simp)⟩
  | some group =>
    have hkeep : ∀ g : Finset LocalHandle, ∀ c', update s.channel c (some g) c' ≠ none →
        s.channel c' ≠ none := by
      intro g c' h
      by_cases hc' : c' = c
      · rw [hc', hc]
        simp
      · rwa [update_of_ne hc'] at h
    dsimp only
    split_ifs with hmem
    · cases hn : s.channelN c with
      | none => exact ⟨rfl, rfl, rfl, fun _ => hkeep _, fun h => absurd h (by simp)⟩
      | some n =>
        dsimp only
        split_ifs with hlast
        · refine ⟨rfl, rfl, rfl, fun h => absurd rfl h, fun _ => ?_⟩
          refine ⟨hlast.2, ?_, ⟨group, rfl, hmem⟩, rfl⟩
          congr 1
          omega
        · exact ⟨rfl, rfl, rfl, fun _ => hkeep _, fun h => absurd h (by simp)⟩
    · exact ⟨rfl, rfl, rfl, fun _ _ h => h, fun h => absurd h (by simp)⟩

theorem subr_frame {node : Harbor} {gone : Bool} {t : Multicastd}
    (h : s.subr node c = some (gone, t)) :
    t.harborId = s.harborId ∧ t.channelId = s.channelId ∧ t.channel = s.channel ∧
      (∀ n c', n ∈ (s.channelRemote c').getD ∅ → n ∈ (t.channelRemote c').getD ∅) ∧
      (gone = false → node ∈ (t.channelRemote c).getD ∅) := by
  unfold subr at h
  split_ifs at h <;> cases h
  · exact ⟨rfl, rfl, rfl, fun _ _ h => h, fun h => absurd h (by simp)⟩
  · refine ⟨rfl, rfl, rfl, fun n c' hn => ?_, fun _ => ?_⟩
    · by_cases hc : c' = c
      · subst hc
        simp [hn]
      · dsimp only
        rwa [update_of_ne hc]
    · simp

theorem usubr_frame {node : Harbor} {t : Multicastd} (h : s.usubr node c = some t) :
    t.harborId = s.harborId ∧ t.channelId = s.channelId ∧ t.channel = s.channel ∧
      ∀ n c', n ∈ (s.channelRemote c').getD ∅ → n ≠ node ∨ c' ≠ c →
        n ∈ (t.channelRemote c').getD ∅ := by
  unfold usubr at h
  split_ifs at h
  obtain ⟨group, hgroup, rfl⟩ := map_eq_some_iff.mp h
  refine ⟨rfl, rfl, rfl, fun n c' hn hne => ?_⟩
  by_cases hc : c' = c
  · subst hc
    rw [hgroup] at hn
    simpa using ⟨hne.resolve_right fun h => h rfl, hn⟩
  · dsimp only
    rwa [update_of_ne hc]

theorem owner_freeId {fuel id id' : ℕ} (h : s.freeId fuel id = some id') :
    owner id' = owner id := by
  induction fuel generalizing id with
  | zero => cases h
  | succ fuel ih =>
    unfold freeId at h
    split_ifs at h
    · exact (ih h).trans (owner_nextid id)
    · cases h
      rfl

theorem new_frame {id : ℕ} {t : Multicastd} (h : s.new = some (id, t)) :
    t.harborId = s.harborId ∧ owner t.channelId = owner s.channelId ∧
      t.channelRemote = s.channelRemote ∧
      ∀ c, t.channel c ≠ none → s.channel c ≠ none ∨ owner c = owner s.channelId := by
  obtain ⟨id, hid, heq⟩ := map_eq_some_iff.mp h
  cases heq
  refine ⟨rfl, (owner_nextid id).trans (owner_freeId hid), rfl, fun c hc => ?_⟩
  by_cases hcid : c = id
  · exact .inr (hcid ▸ owner_freeId hid)
  · refine .inl fun hnone => hc ?_
    exact (update_of_ne hcid _ _).trans hnone

end Frame

/-! ### The numbers of members -/

/-- `channel_n[c]` is the number of members of `channel[c]`. -/
def Counted : Prop := ∀ c, s.channelN c = (s.channel c).map fun group => (group.card : ℤ)

variable {s}

variable {t : Multicastd} {c : ℕ} {source : LocalHandle}

theorem counted_create (harborId : Harbor) : (create harborId).Counted := fun _ => rfl

variable (h : s.Counted)
include h

theorem Counted.update {group : Option (Finset LocalHandle)} {n : Option ℤ}
    (hchannel : t.channel = update s.channel c group) (hn : t.channelN = update s.channelN c n)
    (hcount : n = group.map fun group => (group.card : ℤ)) : t.Counted := by
  intro c'
  rw [hchannel, hn]
  by_cases hc : c' = c
  · subst hc
    rw [update_self, update_self, hcount]
  · rw [update_of_ne hc, update_of_ne hc]
    exact h c'

theorem Counted.new {id : ℕ} (ht : s.new = some (id, t)) : t.Counted := by
  obtain ⟨_, -, heq⟩ := map_eq_some_iff.mp ht
  cases heq
  exact h.update rfl rfl rfl

theorem Counted.delr : (s.delr c).Counted := h.update rfl rfl rfl

theorem Counted.del : (s.del c).1.Counted := fun c' => (h.delr (c := c)) c'

theorem Counted.subr {node : Harbor} {r : Bool × Multicastd} (hr : s.subr node c = some r) :
    r.2.Counted := by
  unfold Multicastd.subr at hr
  split_ifs at hr <;> cases hr
  · exact h
  · exact h

theorem Counted.usubr {node : Harbor} (ht : s.usubr node c = some t) : t.Counted := by
  unfold Multicastd.usubr at ht
  split_ifs at ht
  obtain ⟨_, -, rfl⟩ := map_eq_some_iff.mp ht
  exact h

theorem Counted.join : (s.join source c).1.Counted := by
  unfold Multicastd.join
  cases hc : s.channel c with
  | none => exact h
  | some group =>
    dsimp only
    split_ifs with hmem
    · exact h
    · have hn := h c
      rw [hc] at hn
      rw [hn]
      refine h.update rfl rfl ?_
      rw [map_some, card_insert_of_notMem hmem]
      push_cast
      rfl

theorem Counted.ensure : (s.ensure c).Counted := by
  unfold Multicastd.ensure
  split_ifs
  · exact h.update rfl rfl rfl
  · exact h

theorem Counted.subReply {gone : Bool} : (s.subReply source c gone).1.Counted := by
  unfold Multicastd.subReply
  split_ifs
  · exact h
  · exact h.ensure.join

theorem Counted.usub : (s.usub source c).1.Counted := by
  unfold Multicastd.usub
  cases hc : s.channel c with
  | none => exact h
  | some group =>
    dsimp only
    have hn := h c
    rw [hc] at hn
    split_ifs with hmem
    · rw [hn]
      dsimp
      split_ifs
      · exact h.delr
      · refine h.update rfl rfl ?_
        rw [map_some, card_erase_of_mem hmem]
        have hpos := card_pos.mpr ⟨source, hmem⟩
        congr 1
        omega
    · exact h

end Multicastd

end Uboss.Service
