import Uboss.Core.SocketRecycle
import Uboss.Math.Counter

/-!
# The allocation of socket ids

`reserve_id`, when no other thread interferes. `alloc_id` is an `int` that wraps. The loop is given
fuel, since a slot that another thread has taken does not count; the ids that it draws are
recorded.
-/

namespace Uboss.Core

open Math Function List Int SocketTable Int32 Nat

/-- The fields of `struct socket` that `reserve_id` uses. The descriptor -1 is `none`. -/
structure ReserveSlot where
  type : SocketType
  id : Int32
  udpconnecting : ℕ
  fd : Option Fd
  deriving DecidableEq

/-- `alloc_id` and the slots of `struct socket_server`. -/
structure ReserveServer where
  allocId : Int32
  slot : Fin maxSocket → ReserveSlot

/-- What `reserve_id` returns, the server, and the ids that were drawn. -/
structure ReserveEnd where
  id : Int32
  server : ReserveServer
  drawn : List Int32

/-- `HASH_ID` of an `int`. -/
def hashInt (id : Int32) : Fin maxSocket := hashId id.toUInt32.toNat

/-- The id that is drawn, which is also the next value of `alloc_id`. -/
def drawId (allocId : Int32) : Int32 :=
  let id := allocId + 1
  if id < 0 then id &&& 0x7fffffff else id

namespace ReserveServer

variable (ss : ReserveServer)

/-- `ATOM_CAS(&s->type, oval, nval)` for the slot `h`. -/
def casType (h : Fin maxSocket) (oval nval : SocketType) : Bool × ReserveServer :=
  if (ss.slot h).type = oval then
    (true, { ss with slot := Function.update ss.slot h { ss.slot h with type := nval } })
  else (false, ss)

/-- The stores behind the `ATOM_CAS`. -/
def nameSlot (h : Fin maxSocket) (id : Int32) : ReserveServer :=
  { ss with
    slot := Function.update ss.slot h
      { ss.slot h with id := id, udpconnecting := 0, fd := none } }

/-- The loop of `reserve_id` from `i` on, where `drawn` has been drawn. -/
def reserveLoop : ℕ → ℤ → ReserveServer → List Int32 → Option ReserveEnd
  | 0, _, _, _ => none
  | fuel + 1, i, ss, drawn =>
    if i < maxSocket then
      let id := drawId ss.allocId
      let ss := { ss with allocId := id }
      let drawn := drawn ++ [id]
      if (ss.slot (hashInt id)).type = .invalid then
        match ss.casType (hashInt id) .invalid .reserve with
        | (true, ss) => some ⟨id, ss.nameSlot (hashInt id) id, drawn⟩
        -- `--i`, and then `i++`.
        | (false, ss) => reserveLoop fuel (i - 1 + 1) ss drawn
      else reserveLoop fuel (i + 1) ss drawn
    else some ⟨-1, ss, drawn⟩

/-- `reserve_id`. -/
def reserveId (fuel : ℕ) : Option ReserveEnd := reserveLoop fuel 0 ss []

/-- A slot is free. -/
def HasFree : Prop := ∃ h, (ss.slot h).type = .invalid

end ReserveServer

/-- The id was given to a slot that was free, and no other slot has changed. -/
structure ReserveEnd.Took (ss : ReserveServer) (r : ReserveEnd) : Prop where
  nonneg : 0 ≤ r.id
  free : (ss.slot (hashInt r.id)).type = .invalid
  reserved : (r.server.slot (hashInt r.id)).type = .reserve
  named : (r.server.slot (hashInt r.id)).id = r.id
  frame : ∀ h, h ≠ hashInt r.id → r.server.slot h = ss.slot h

/-- A slot is taken if and only if one is free, and no slot is looked at twice. -/
structure Reserves (ss : ReserveServer) (r : ReserveEnd) : Prop where
  once : (r.drawn.map hashInt).Nodup
  took_iff : r.Took ss ↔ ss.HasFree
  failed : ¬ ss.HasFree → r.id = -1 ∧ r.server.slot = ss.slot
  nonneg : 0 ≤ r.server.allocId

/-- Calls of `reserve_id` one after the other draw these ids. Between two calls the slots may
change in any way, and `alloc_id` does not. -/
inductive Drawn : Int32 → List Int32 → Prop
  | nil (allocId : Int32) : Drawn allocId []
  | call {ss : ReserveServer} {fuel : ℕ} {r : ReserveEnd} {ids : List Int32}
      (hcall : ss.reserveId fuel = some r) (hrest : Drawn r.server.allocId ids) :
      Drawn ss.allocId (r.drawn ++ ids)

section Ids

theorem toInt_and_mask (b : Int32) : (b &&& 0x7fffffff).toInt = b.toInt % 2 ^ 31 := by
  have hnat : (b &&& 0x7fffffff).toBitVec.toNat = b.toBitVec.toNat % 2 ^ 31 := by
    rw [Int32.toBitVec_and, BitVec.toNat_and]
    exact and_two_pow_sub_one_eq_mod _ 31
  have hlt := b.toBitVec.isLt
  rw [← toInt_toBitVec, ← toInt_toBitVec, BitVec.toInt_eq_toNat_cond,
    BitVec.toInt_eq_toNat_cond, hnat]
  split <;> split <;> omega

/-- The mask makes the counter one of 31 bits. -/
theorem toInt_drawId (a : Int32) : (drawId a).toInt = (a.toInt + 1) % 2 ^ 31 := by
  have hlow := a.le_toInt
  have hhigh := a.toInt_lt
  have hsum : (a + 1).toInt = (a.toInt + 1).bmod (2 ^ 32) := by
    rw [toInt_add, toInt_one]
  have hcong : (a + 1).toInt % 2 ^ 31 = (a.toInt + 1) % 2 ^ 31 := by
    rw [hsum, bmod_def]
    split <;> omega
  unfold drawId
  dsimp only
  split
  · rw [toInt_and_mask, hcong]
  · next hneg =>
    rw [Int32.not_lt, Int32.le_iff_toInt_le, Int32.toInt_zero] at hneg
    rw [← hcong, emod_eq_of_lt hneg (a + 1).toInt_lt]

theorem drawId_nonneg (a : Int32) : 0 ≤ drawId a := by
  rw [le_iff_toInt_le, toInt_drawId, toInt_zero]
  exact emod_nonneg _ (by decide)

/-- `alloc_id` as a counter. -/
def idCounter : Counter Int32 (2 ^ 31) where
  next := drawId
  value a := (a.toInt % 2 ^ 31).toNat
  value_next a := by
    rw [toInt_drawId]
    omega

theorem after_nonneg (a : Int32) {k : ℕ} (hk : 0 < k) : 0 ≤ idCounter.after a k := by
  obtain ⟨k, rfl⟩ := Nat.exists_eq_add_of_lt hk
  rw [Counter.after_succ']
  exact drawId_nonneg _

theorem val_hashInt (id : Int32) : (hashInt id).val = idCounter.value id % maxSocket := by
  have hlt := id.toBitVec.isLt
  change id.toBitVec.toNat % maxSocket = (id.toInt % 2 ^ 31).toNat % maxSocket
  rw [← toInt_toBitVec, BitVec.toInt_eq_toNat_cond, maxSocket]
  split <;> omega

theorem nodup_hashInt_draw {n : ℕ} (hn : n ≤ maxSocket) (a : Int32) :
    ((idCounter.draw a n).map hashInt).Nodup := by
  have hnodup := idCounter.nodup_map_draw (pow_dvd_pow 2 (by decide : 16 ≤ 31)) hn a
  have hval : Fin.val ∘ hashInt = fun id => idCounter.value id % maxSocket := funext val_hashInt
  refine List.Nodup.of_map Fin.val ?_
  rwa [map_map, hval]

theorem exists_hashInt_draw (h : Fin maxSocket) (a : Int32) :
    ∃ id ∈ idCounter.draw a maxSocket, hashInt id = h := by
  obtain ⟨id, hid, heq⟩ := idCounter.exists_mem_draw (pow_dvd_pow 2 (by decide : 16 ≤ 31)) h.isLt a
  exact ⟨id, hid, Fin.ext ((val_hashInt id).trans heq)⟩

end Ids

namespace ReserveServer

variable {ss : ReserveServer} {drawn : List Int32} {fuel n : ℕ} {i : ℤ}

/-- The server after an id has been given to its slot. -/
def taken (ss : ReserveServer) (id : Int32) : ReserveServer where
  allocId := id
  slot := Function.update ss.slot (hashInt id) ⟨.reserve, id, 0, none⟩

/-- A slot that is free is taken. -/
theorem reserveLoop_free (hi : i < maxSocket)
    (hfree : (ss.slot (hashInt (drawId ss.allocId))).type = .invalid) :
    reserveLoop (fuel + 1) i ss drawn =
      some ⟨drawId ss.allocId, ss.taken (drawId ss.allocId), drawn ++ [drawId ss.allocId]⟩ := by
  rw [reserveLoop, if_pos hi]
  dsimp only
  rw [if_pos hfree, casType, if_pos hfree]
  simp [nameSlot, taken]

/-- Behind a slot that is not free the loop goes on. -/
theorem reserveLoop_used (hi : i < maxSocket)
    (hused : (ss.slot (hashInt (drawId ss.allocId))).type ≠ .invalid) :
    reserveLoop (fuel + 1) i ss drawn =
      reserveLoop fuel (i + 1) { ss with allocId := drawId ss.allocId }
        (drawn ++ [drawId ss.allocId]) := by
  rw [reserveLoop, if_pos hi]
  dsimp only
  rw [if_neg hused]

/-- The loop with `n` attempts left, if no slot that it looks at is free. -/
theorem reserveLoop_full (ss : ReserveServer) (hi : i + n = maxSocket)
    (hused : ∀ id ∈ idCounter.draw ss.allocId n, ¬ (ss.slot (hashInt id)).type = .invalid) :
    reserveLoop (fuel + n + 1) i ss drawn =
      some ⟨-1, { ss with allocId := idCounter.after ss.allocId n },
        drawn ++ idCounter.draw ss.allocId n⟩ := by
  induction n generalizing i ss drawn with
  | zero =>
    rw [reserveLoop, if_neg (by omega), Counter.draw_zero, append_nil]
    rfl
  | succ n ih =>
    obtain ⟨hnext, hrest⟩ := forall_mem_cons.mp hused
    rw [← add_assoc, reserveLoop_used (by omega) hnext,
      ih { ss with allocId := drawId ss.allocId } (by omega) hrest, append_assoc]
    rfl

/-- The loop takes the first free slot that it looks at. -/
theorem reserveLoop_found {k : ℕ} (ss : ReserveServer) (hi : i + k < maxSocket)
    (hused : ∀ id ∈ idCounter.draw ss.allocId k, ¬ (ss.slot (hashInt id)).type = .invalid)
    (hfree : (ss.slot (hashInt (idCounter.after ss.allocId (k + 1)))).type = .invalid) :
    reserveLoop (fuel + k + 1) i ss drawn =
      some ⟨idCounter.after ss.allocId (k + 1), ss.taken (idCounter.after ss.allocId (k + 1)),
        drawn ++ idCounter.draw ss.allocId (k + 1)⟩ := by
  induction k generalizing i ss drawn with
  | zero => exact reserveLoop_free (by omega) hfree
  | succ k ih =>
    obtain ⟨hnext, hrest⟩ := forall_mem_cons.mp hused
    rw [← add_assoc, reserveLoop_used (by omega) hnext,
      ih { ss with allocId := drawId ss.allocId } (by omega) hrest hfree,
      append_assoc]
    rfl

/-- Both ends of the loop, with the ids that were drawn. -/
theorem reserveId_cases (ss : ReserveServer) (hfuel : maxSocket < fuel) :
    (¬ ss.HasFree ∧ ss.reserveId fuel =
        some ⟨-1, { ss with allocId := idCounter.after ss.allocId maxSocket },
          idCounter.draw ss.allocId maxSocket⟩) ∨
      ∃ k < maxSocket,
        (∀ id ∈ idCounter.draw ss.allocId k, ¬ (ss.slot (hashInt id)).type = .invalid) ∧
        (ss.slot (hashInt (idCounter.after ss.allocId (k + 1)))).type = .invalid ∧
        ss.reserveId fuel =
          some ⟨idCounter.after ss.allocId (k + 1), ss.taken (idCounter.after ss.allocId (k + 1)),
            idCounter.draw ss.allocId (k + 1)⟩ := by
  obtain hused | ⟨k, hk, hused, hfree⟩ := idCounter.exists_first
    (fun id => (ss.slot (hashInt id)).type = .invalid) ss.allocId maxSocket
  · obtain ⟨m, rfl⟩ := Nat.exists_eq_add_of_lt hfuel
    refine .inl ⟨fun ⟨h, hh⟩ => ?_, ?_⟩
    · obtain ⟨id, hid, rfl⟩ := exists_hashInt_draw h ss.allocId
      exact hused id hid hh
    · rw [add_comm maxSocket]
      exact reserveLoop_full ss (Int.zero_add _) hused
  · obtain ⟨m, rfl⟩ := Nat.exists_eq_add_of_lt (hk.trans hfuel)
    refine .inr ⟨k, hk, hused, hfree, ?_⟩
    rw [add_comm k]
    exact reserveLoop_found ss (by rw [Int.zero_add]; exact_mod_cast hk) hused hfree

theorem took_taken {id : Int32} (hid : 0 ≤ id) (hfree : (ss.slot (hashInt id)).type = .invalid) :
    (⟨id, ss.taken id, drawn⟩ : ReserveEnd).Took ss where
  nonneg := hid
  free := hfree
  reserved := by simp [taken]
  named := by simp [taken]
  frame h hh := update_of_ne hh _ _

theorem reserves_full (hnone : ¬ ss.HasFree) {n : ℕ} (hpos : 0 < n) (hn : n ≤ maxSocket) :
    Reserves ss
      ⟨-1, { ss with allocId := idCounter.after ss.allocId n }, idCounter.draw ss.allocId n⟩ where
  once := nodup_hashInt_draw hn _
  took_iff := ⟨fun h => absurd h.nonneg (by decide : ¬ (0 : Int32) ≤ -1), fun h => absurd h hnone⟩
  failed _ := ⟨rfl, rfl⟩
  nonneg := after_nonneg _ hpos

theorem reserves_taken {n : ℕ} (hpos : 0 < n) (hn : n ≤ maxSocket)
    (hfree : (ss.slot (hashInt (idCounter.after ss.allocId n))).type = .invalid) :
    Reserves ss ⟨idCounter.after ss.allocId n, ss.taken (idCounter.after ss.allocId n),
        idCounter.draw ss.allocId n⟩ where
  once := nodup_hashInt_draw hn _
  took_iff := ⟨fun _ => ⟨_, hfree⟩, fun _ => took_taken (after_nonneg _ hpos) hfree⟩
  failed hnone := absurd ⟨_, hfree⟩ hnone
  nonneg := after_nonneg _ hpos

/-- One call looks at no slot twice and takes a free slot if there is one. -/
theorem reserves_of_fuel (ss : ReserveServer) (hfuel : maxSocket < fuel) :
    ∃ r, ss.reserveId fuel = some r ∧ Reserves ss r := by
  obtain ⟨hnone, hend⟩ | ⟨k, hk, -, hfree, hend⟩ := reserveId_cases ss hfuel
  · exact ⟨_, hend, reserves_full hnone (Nat.two_pow_pos 16) le_rfl⟩
  · exact ⟨_, hend, reserves_taken k.succ_pos hk hfree⟩

section Draws

variable {r : ReserveEnd}

theorem reserveLoop_draws (h : reserveLoop fuel i ss drawn = some r) :
    ∃ n, r.drawn = drawn ++ idCounter.draw ss.allocId n ∧
      r.server.allocId = idCounter.after ss.allocId n := by
  induction fuel generalizing i ss drawn with
  | zero => cases h
  | succ fuel ih =>
    by_cases hi : i < maxSocket
    · by_cases hfree : (ss.slot (hashInt (drawId ss.allocId))).type = .invalid
      · rw [reserveLoop_free hi hfree] at h
        obtain rfl := Option.some.inj h
        exact ⟨1, rfl, rfl⟩
      · rw [reserveLoop_used hi hfree] at h
        obtain ⟨n, hdrawn, halloc⟩ := ih h
        refine ⟨n + 1, ?_, halloc⟩
        rw [hdrawn, append_assoc]
        rfl
    · rw [reserveLoop, if_neg hi] at h
      obtain rfl := Option.some.inj h
      exact ⟨0, (append_nil _).symm, rfl⟩

end Draws

end ReserveServer

theorem Drawn.eq_draw {a : Int32} {ids : List Int32} (h : Drawn a ids) :
    ∃ n, ids = idCounter.draw a n := by
  induction h with
  | nil a => exact ⟨0, rfl⟩
  | call hcall _ ih =>
    obtain ⟨k, hdrawn, halloc⟩ := ReserveServer.reserveLoop_draws hcall
    obtain ⟨n, rfl⟩ := ih
    refine ⟨k + n, ?_⟩
    rw [hdrawn, halloc, nil_append, Counter.draw_add]

namespace ReserveServer

/-- A call takes a free slot if there is one, and else returns -1; no slot is looked at twice. Of
the ids that are drawn one after the other, `2 ^ 31` are different. -/
theorem reserveId_reserves (ss : ReserveServer) :
    (∀ fuel, maxSocket < fuel → ∃ r, ss.reserveId fuel = some r ∧ Reserves ss r) ∧
      ∀ ids, Drawn ss.allocId ids → ∀ w, w <:+: ids → w.length ≤ 2 ^ 31 → w.Nodup := by
  refine ⟨fun fuel => reserves_of_fuel ss, fun ids hids w hw hlength => ?_⟩
  obtain ⟨n, rfl⟩ := hids.eq_draw
  exact idCounter.nodup_of_infix hw hlength

section Refinement

variable {ι : Type} {t : SocketTable ι} {a : Int32} {fuel n : ℕ}

/-- The same slots and the same `alloc_id` in the table of sockets. -/
structure Models (ss : ReserveServer) (t : SocketTable ι) : Prop where
  allocId : ss.allocId.toInt = t.allocId
  type (h : Fin maxSocket) : (ss.slot h).type = (t.slot h).socket.type
  id (h : Fin maxSocket) : (ss.slot h).id.toInt = (t.slot h).id
  udpconnecting (h : Fin maxSocket) : (ss.slot h).udpconnecting = (t.slot h).socket.udpconnecting
  fd (h : Fin maxSocket) : (ss.slot h).fd = (t.slot h).fd

theorem toInt_drawId_eq (ha : a.toInt = n) : (drawId a).toInt = nextId n := by
  rw [toInt_drawId, ha, nextId]
  exact_mod_cast rfl

theorem hashInt_eq (ha : a.toInt = n) : hashInt a = hashId n := by
  have hlt := a.toInt_lt
  refine Fin.ext ((val_hashInt a).trans ?_)
  change (a.toInt % 2 ^ 31).toNat % maxSocket = n % maxSocket
  rw [ha, emod_eq_of_lt (by omega) (by omega), toNat_natCast]

theorem tryReserve_full (hn : a.toInt = n) {k : ℕ}
    (hused : ∀ id ∈ idCounter.draw a k, ¬ (t.slot (hashInt id)).socket.type = .invalid) :
    ∃ allocId : ℕ, t.tryReserve k n = (allocId, none) ∧ (idCounter.after a k).toInt = allocId := by
  induction k generalizing a n with
  | zero => exact ⟨n, rfl, hn⟩
  | succ k ih =>
    obtain ⟨hnext, hrest⟩ := forall_mem_cons.mp hused
    have hdraw := toInt_drawId_eq hn
    obtain ⟨allocId, htry, hafter⟩ := ih hdraw hrest
    refine ⟨allocId, ?_, hafter⟩
    change ¬ (t.slot (hashInt (drawId a))).socket.type = .invalid at hnext
    rw [hashInt_eq hdraw] at hnext
    rw [tryReserve, if_neg hnext, htry]

theorem tryReserve_found (hn : a.toInt = n) {k m : ℕ} (hk : k < m)
    (hused : ∀ id ∈ idCounter.draw a k, ¬ (t.slot (hashInt id)).socket.type = .invalid)
    (hfree : (t.slot (hashInt (idCounter.after a (k + 1)))).socket.type = .invalid) :
    ∃ id : ℕ, t.tryReserve m n = (id, some id) ∧ (idCounter.after a (k + 1)).toInt = id := by
  induction k generalizing a n m with
  | zero =>
    obtain ⟨m, rfl⟩ := Nat.exists_eq_add_of_lt hk
    have hdraw := toInt_drawId_eq hn
    refine ⟨_, ?_, hdraw⟩
    change (t.slot (hashInt (drawId a))).socket.type = .invalid at hfree
    rw [hashInt_eq hdraw] at hfree
    rw [tryReserve, if_pos hfree]
  | succ k ih =>
    obtain ⟨m, rfl⟩ := Nat.exists_eq_add_of_lt (Nat.zero_lt_of_lt hk)
    obtain ⟨hnext, hrest⟩ := forall_mem_cons.mp hused
    have hdraw := toInt_drawId_eq hn
    obtain ⟨id, htry, hafter⟩ := ih hdraw (by omega : k < 0 + m) hrest hfree
    refine ⟨id, ?_, hafter⟩
    change ¬ (t.slot (hashInt (drawId a))).socket.type = .invalid at hnext
    rw [hashInt_eq hdraw] at hnext
    rw [tryReserve, if_neg hnext, htry]

theorem Models.taken {ss : ReserveServer} (hm : ss.Models t) (ha : a.toInt = n) :
    (ss.taken a).Models ((setType { t with allocId := n } (hashId n) .reserve).nameSlot n) := by
  have hhash := hashInt_eq ha
  unfold ReserveServer.taken SocketTable.nameSlot setType put
  rw [hhash]
  constructor
  case allocId => exact ha
  all_goals
    intro h
    by_cases heq : h = hashId n
    · subst heq
      simp [ha]
    · simp only [update_of_ne heq, hm.type, hm.id, hm.udpconnecting, hm.fd]

theorem Models.counted {ss : ReserveServer} (hm : ss.Models t) (ha : a.toInt = n) :
    ({ ss with allocId := a } : ReserveServer).Models { t with allocId := n } :=
  ⟨ha, hm.type, hm.id, hm.udpconnecting, hm.fd⟩

/-- Without interference a reservation is one step of the table of sockets. -/
theorem reserveId_models {ss : ReserveServer} (hm : ss.Models t) (hfuel : maxSocket < fuel) :
    ∃ r, ss.reserveId fuel = some r ∧ r.server.Models t.reserveId.1 ∧
      r.id.toInt = t.reserveId.2.elim (-1) Nat.cast := by
  obtain ⟨hnone, hend⟩ | ⟨k, hk, hused, hfree, hend⟩ := reserveId_cases ss hfuel
  · obtain ⟨allocId, htry, halloc⟩ := tryReserve_full (t := t) hm.allocId
      fun id _ hid => hnone ⟨hashInt id, (hm.type _).trans hid⟩
    refine ⟨_, hend, ?_⟩
    rw [SocketTable.reserveId, htry]
    exact ⟨hm.counted halloc, rfl⟩
  · simp only [hm.type] at hused hfree
    obtain ⟨id, htry, hid⟩ := tryReserve_found hm.allocId hk hused hfree
    refine ⟨_, hend, ?_⟩
    rw [SocketTable.reserveId, htry]
    exact ⟨hm.taken hid, hid⟩

/-- `alloc_id` is as large as it may be, and the slot of the next id is taken. -/
def wrappingTable : SocketTable Unit :=
  setType { create SocketRecycle.blank with allocId := 2 ^ 31 - 1 } (hashId 0) .reserve

/-- The same slots and the same `alloc_id`. -/
def wrappingServer : ReserveServer where
  allocId := 0x7fffffff
  slot h := ⟨if h = hashId 0 then .reserve else .invalid, 0, 0, none⟩

theorem wrappingServer_models : wrappingServer.Models wrappingTable := by
  unfold wrappingTable setType put
  constructor
  case allocId => rfl
  all_goals
    intro h
    by_cases heq : h = hashId 0
    · subst heq
      simp [wrappingServer, create, SocketRecycle.blank]
    · simp [wrappingServer, create, SocketRecycle.blank, heq]

/-- The mask makes 0 of the first id; its slot is taken, so the next one is drawn. -/
theorem reserveId_models_wrapping : ∃ r, wrappingServer.reserveId 65537 = some r ∧
    r.server.Models wrappingTable.reserveId.1 ∧
      r.id.toInt = wrappingTable.reserveId.2.elim (-1) Nat.cast ∧ r.drawn = [0, 1] := by
  have hfirst : drawId wrappingServer.allocId = 0 := by decide
  have hused : (wrappingServer.slot (hashInt 0)).type ≠ .invalid := by decide
  have hfree : (wrappingServer.slot (hashInt 1)).type = .invalid := by decide
  obtain ⟨r, hr, hmodels, hid⟩ := reserveId_models wrappingServer_models (by decide : _ < 65537)
  refine ⟨r, hr, hmodels, hid, ?_⟩
  rw [reserveId, reserveLoop_used (by decide) (hfirst ▸ hused), reserveLoop_free (by decide)
    (by rw [hfirst]; exact hfree)] at hr
  obtain rfl := Option.some.inj hr
  change [] ++ [drawId wrappingServer.allocId] ++ [drawId (drawId wrappingServer.allocId)] = _
  rw [hfirst]
  decide

end Refinement

end ReserveServer

end Uboss.Core
