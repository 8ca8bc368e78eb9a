import Uboss.Math.BitMask
import Uboss.Math.DigitWheel

/-!
# The timer wheel

`uboss_timer.c` keeps its nodes in 256 near lists and four levels of 64 lists. `add_node`
files a node by comparing its 32-bit expiry with the present time block by block, and
`timer_shift` refiles one list when the clock enters a new block.

The list that `timer_shift` refiles is the one `add_node` would have chosen, at the old
time, for a node that expires now; that is what connects the two functions.
-/

namespace Uboss.Core

open Math List Nat

def timeNearShift : ℕ := 8

def timeNear : ℕ := 1 <<< timeNearShift

def timeLevelShift : ℕ := 6

def timeLevel : ℕ := 1 <<< timeLevelShift

def timeNearMask : ℕ := timeNear - 1

def timeLevelMask : ℕ := timeLevel - 1

/-- `struct timer_event`. -/
structure TimerEvent where
  handle : ℕ
  session : ℤ
  deriving DecidableEq, Repr

/-- `struct timer_node` with the event behind it. The number stands for the address and
counts the calls of `timer_add`. -/
structure TimerNode where
  id : ℕ
  expire : ℕ
  event : TimerEvent
  deriving DecidableEq, Repr

/-- The name of one of the lists: `T->near[j]` or `T->t[i][j]`. -/
inductive WheelList
  | near (j : ℕ)
  | level (i j : ℕ)
  deriving DecidableEq, Repr

/-- The wheel of `struct timer`. -/
structure Timer where
  list : WheelList → List TimerNode
  time : ℕ

/-- The loop of `add_node`: the first level whose mask hides all differing bits. -/
def levelFor (time currentTime : ℕ) : ℕ := ((List.range 3).find? fun i =>
    let mask := timeNear <<< ((i + 1) * timeLevelShift)
    time ||| (mask - 1) = currentTime ||| (mask - 1)).getD 3

/-- The list that `add_node` links a node to. -/
def listFor (time currentTime : ℕ) : WheelList :=
  if time ||| timeNearMask = currentTime ||| timeNearMask then
    .near (time &&& timeNearMask)
  else
    let i := levelFor time currentTime
    .level i ((time >>> (timeNearShift + i * timeLevelShift)) &&& timeLevelMask)

/-- `link`: the node goes to the end of the list. -/
def Timer.link (T : Timer) (l : WheelList) (node : TimerNode) : Timer :=
  { T with list := Function.update T.list l (T.list l ++ [node]) }

/-- `link_clear`, without the returned list. -/
def Timer.linkClear (T : Timer) (l : WheelList) : Timer :=
  { T with list := Function.update T.list l [] }

def addNode (T : Timer) (node : TimerNode) : Timer := T.link (listFor node.expire T.time) node

/-- The locked section of `timer_add`. -/
def timerAdd (T : Timer) (id : ℕ) (event : TimerEvent) (time : ℕ) : Timer :=
  addNode T ⟨id, (time + T.time) % 2 ^ 32, event⟩

def moveList (T : Timer) (l : WheelList) : Timer := (T.list l).foldl addNode (T.linkClear l)

/-- The `while` loop of `timer_shift`; four rounds reach the top level. -/
def shiftLoop (T : Timer) (ct : ℕ) : ℕ → ℕ → ℕ → ℕ → Timer
  | 0, _, _, _ => T
  | rounds + 1, mask, time, i =>
    if ct &&& (mask - 1) = 0 then
      let idx := time &&& timeLevelMask
      if idx ≠ 0 then moveList T (.level i idx)
      else shiftLoop T ct rounds (mask <<< timeLevelShift) (time >>> timeLevelShift) (i + 1)
    else T

def timerShift (T : Timer) : Timer :=
  let ct := (T.time + 1) % 2 ^ 32
  let T := { T with time := ct }
  if ct = 0 then moveList T (.level 3 0)
  else shiftLoop T ct 4 timeNear (ct >>> timeNearShift) 0

/-! ### The wheel as nested blocks -/

/-- The block lengths of the wheel. -/
def wheelBlock (i : ℕ) : ℕ := 2 ^ (8 + 6 * i)

theorem wheelBlock_dvd (i : ℕ) : wheelBlock i ∣ wheelBlock (i + 1) := pow_dvd_pow 2 (by omega)

theorem wheelBlock_pos (i : ℕ) : 0 < wheelBlock i := Nat.two_pow_pos _

theorem wheelBlock_quotient (i : ℕ) : wheelBlock (i + 1) / wheelBlock i = 64 := by
  rw [wheelBlock, wheelBlock, Nat.pow_div (by omega) (by decide)]
  rw [show 8 + 6 * (i + 1) - (8 + 6 * i) = 6 by omega]

/-- The list under a level and a digit. -/
def wheelFile (level digit : ℕ) : WheelList :=
  match level with
  | 0 => .near digit
  | i + 1 => .level i digit

/-- The level of a list. -/
def WheelList.rank : WheelList → ℕ
  | .near _ => 0
  | .level i _ => i + 1

@[simp] theorem rank_wheelFile (l d : ℕ) : (wheelFile l d).rank = l := by
  cases l <;> rfl

theorem wheelFile_inj {l l' d d' : ℕ} : wheelFile l d = wheelFile l' d' ↔ l = l' ∧ d = d' := by
  cases l <;> cases l' <;> simp [wheelFile]

theorem nearMask_eq : timeNearMask = 2 ^ 8 - 1 := rfl

theorem levelMask_eq : timeLevelMask = 2 ^ 6 - 1 := rfl

theorem level_mask_sub_one (i : ℕ) :
    timeNear <<< ((i + 1) * timeLevelShift) - 1 = 2 ^ (8 + 6 * (i + 1)) - 1 := by
  rw [timeNear, timeNearShift, timeLevelShift, shiftLeft_eq, one_shiftLeft, ← pow_add,
    mul_comm (i + 1)]

/-- `add_node` files by the first block that the expiry shares with the present time. -/
theorem listFor_eq (e o : ℕ) : listFor e o = wheelFile (wheelLevel wheelBlock 4 o e)
      (wheelDigit wheelBlock (wheelLevel wheelBlock 4 o e) e) := by
  have hdigit : ∀ i, (e >>> (timeNearShift + i * timeLevelShift)) &&& timeLevelMask =
      wheelDigit wheelBlock (i + 1) e := by
    intro i
    rw [wheelDigit, wheelBlock_quotient, levelMask_eq, and_two_pow_sub_one_eq_mod,
      shiftRight_eq_div_pow, wheelBlock, timeNearShift, timeLevelShift, mul_comm i]
  have hnear : e &&& timeNearMask = wheelDigit wheelBlock 0 e := by
    rw [nearMask_eq, and_two_pow_sub_one_eq_mod]
    rfl
  have hfirst : (e ||| timeNearMask = o ||| timeNearMask) ↔
      e / wheelBlock 0 = o / wheelBlock 0 := or_two_pow_sub_one_eq_iff e o 8
  unfold listFor
  by_cases h0 : e / wheelBlock 0 = o / wheelBlock 0
  · rw [if_pos (hfirst.mpr h0), hnear]
    have hl : wheelLevel wheelBlock 4 o e = 0 := by
      simp [wheelLevel, range_succ_eq_map, h0]
    rw [hl]
    rfl
  · rw [if_neg (fun h => h0 (hfirst.mp h))]
    have hl : wheelLevel wheelBlock 4 o e = levelFor e o + 1 := by
      simp only [wheelLevel, levelFor, level_mask_sub_one, or_two_pow_sub_one_eq_iff]
      rw [range_succ_eq_map (n := 3), find?_cons_of_neg (by simpa using h0), find?_map]
      simp only [Function.comp_def, succ_eq_add_one]
      change (Option.map _ ((List.range 3).find? fun i =>
        decide (e / 2 ^ (8 + 6 * (i + 1)) = o / 2 ^ (8 + 6 * (i + 1))))).getD 4 = _
      cases (List.range 3).find? fun i =>
        decide (e / 2 ^ (8 + 6 * (i + 1)) = o / 2 ^ (8 + 6 * (i + 1))) <;> rfl
    simp only [hl, hdigit]
    rfl

/-! ### The list that a shift refiles -/

theorem listFor_of_wheelLevel {e o l : ℕ} (h : wheelLevel wheelBlock 4 o e = l) :
    listFor e o = wheelFile l (wheelDigit wheelBlock l e) := by
  rw [listFor_eq, h]

theorem shiftLoop_succ (T : Timer) (ct rounds i : ℕ) :
    shiftLoop T ct (rounds + 1) (wheelBlock i) (ct / wheelBlock i) i =
      if ct % wheelBlock i = 0 then
        if ct / wheelBlock i % 64 ≠ 0 then moveList T (.level i (ct / wheelBlock i % 64))
        else shiftLoop T ct rounds (wheelBlock (i + 1)) (ct / wheelBlock (i + 1)) (i + 1)
      else T := by
  have hmask : ct &&& (wheelBlock i - 1) = ct % wheelBlock i := and_two_pow_sub_one_eq_mod ct _
  have hidx : ct / wheelBlock i &&& timeLevelMask = ct / wheelBlock i % 64 :=
    and_two_pow_sub_one_eq_mod _ 6
  have hnext : wheelBlock i <<< timeLevelShift = wheelBlock (i + 1) := by
    rw [wheelBlock, wheelBlock, timeLevelShift, shiftLeft_eq, ← pow_add]
    rfl
  have htime : (ct / wheelBlock i) >>> timeLevelShift = ct / wheelBlock (i + 1) := by
    rw [← hnext, shiftRight_eq_div_pow, shiftLeft_eq, Nat.div_div_eq_div_mul]
  rw [shiftLoop]
  simp only [hmask, hidx, hnext, htime]

/-- A block is left exactly when the new time is a multiple of its length. -/
theorem div_succ_eq_iff (o b : ℕ) : (o + 1) / b = o / b ↔ (o + 1) % b ≠ 0 := by
  rw [Nat.succ_div, ne_eq, ← dvd_iff_mod_eq_zero]
  split_ifs with h <;> simp [h]

theorem mod_wheelBlock_succ (x i : ℕ) :
    x % wheelBlock (i + 1) = x % wheelBlock i + wheelBlock i * (x / wheelBlock i % 64) := by
  have hmul : wheelBlock (i + 1) = wheelBlock i * 64 := by
    rw [wheelBlock, wheelBlock, show 8 + 6 * (i + 1) = 8 + 6 * i + 6 by omega, pow_add]
    rfl
  rw [hmul, mod_mul]

/-- What the loop of `timer_shift` does from level `i` on, all blocks below having been
left. -/
theorem shiftLoop_eq (T : Timer) {o : ℕ} (ho : o + 1 < 2 ^ 32) {rounds i : ℕ}
    (hi : rounds + i = 4) (hbelow : ∀ j < i, (o + 1) / wheelBlock j ≠ o / wheelBlock j)
    (hmod : i = 0 ∨ (o + 1) % wheelBlock i = 0) :
    shiftLoop T (o + 1) rounds (wheelBlock i) ((o + 1) / wheelBlock i) i =
      match listFor (o + 1) o with
      | .near _ => T
      | .level i j => moveList T (.level i j) := by
  have htop : (o + 1) / wheelBlock 4 = o / wheelBlock 4 := by
    simp only [wheelBlock]
    omega
  induction rounds generalizing i with
  | zero =>
    -- the top block is never left, so the loop has stopped before
    have h4 : i = 4 := by omega
    subst h4
    rcases hmod with h | h
    · omega
    · exact absurd h ((div_succ_eq_iff o _).mp htop)
  | succ rounds ih =>
    rw [shiftLoop_succ]
    by_cases hcross : (o + 1) % wheelBlock i = 0
    · have hleft : (o + 1) / wheelBlock i ≠ o / wheelBlock i :=
        fun h => (div_succ_eq_iff o _).mp h hcross
      have hbelow' : ∀ j < i + 1, (o + 1) / wheelBlock j ≠ o / wheelBlock j := by
        intro j hj
        rcases Nat.lt_succ_iff_lt_or_eq.mp hj with hlt | rfl
        · exact hbelow j hlt
        · exact hleft
      have hsucc := mod_wheelBlock_succ (o + 1) i
      rw [hcross, zero_add] at hsucc
      rw [if_pos hcross]
      by_cases hdigit : (o + 1) / wheelBlock i % 64 = 0
      · rw [if_neg (not_not.mpr hdigit)]
        refine ih (by omega) hbelow' (.inr ?_)
        rw [hsucc, hdigit, mul_zero]
      · have hstay : (o + 1) / wheelBlock (i + 1) = o / wheelBlock (i + 1) := by
          rw [div_succ_eq_iff, hsucc]
          exact mul_ne_zero (wheelBlock_pos i).ne' hdigit
        have hlist : listFor (o + 1) o = .level i ((o + 1) / wheelBlock i % 64) := by
          rw [listFor_of_wheelLevel
            ((wheelLevel_eq_iff htop).mpr ⟨by omega, hstay, hbelow'⟩), wheelDigit,
            wheelBlock_quotient]
          rfl
        rw [if_pos hdigit, hlist]
    · have h0 : i = 0 := hmod.resolve_right hcross
      subst h0
      have hlist : listFor (o + 1) o = .near (wheelDigit wheelBlock 0 (o + 1)) :=
        listFor_of_wheelLevel ((wheelLevel_eq_iff htop).mpr
          ⟨by omega, (div_succ_eq_iff o _).mpr hcross, by simp⟩)
      rw [if_neg hcross, hlist]

/-- `timer_shift` advances the clock and refiles the list in which a node that expires now
was filed, if this is not a near list. -/
theorem timerShift_eq (T : Timer) (ho : T.time < 2 ^ 32) : timerShift T =
      match listFor ((T.time + 1) % 2 ^ 32) T.time with
      | .near _ => { T with time := (T.time + 1) % 2 ^ 32 }
      | .level i j => moveList { T with time := (T.time + 1) % 2 ^ 32 } (.level i j) := by
  by_cases hwrap : T.time = 2 ^ 32 - 1
  · have hlist : listFor ((T.time + 1) % 2 ^ 32) T.time = .level 3 0 := by
      rw [hwrap]
      decide
    rw [hlist]
    simp [timerShift, hwrap]
  · have hlt : T.time + 1 < 2 ^ 32 := by omega
    have hstart : (T.time + 1) >>> timeNearShift = (T.time + 1) / wheelBlock 0 :=
      shiftRight_eq_div_pow _ _
    simp only [timerShift, mod_eq_of_lt hlt]
    rw [if_neg (succ_ne_zero _), hstart]
    exact shiftLoop_eq _ hlt rfl (by simp) (.inl rfl)

/-! ### A tick and the list of a node -/

section Tick

variable {o e r : ℕ} (ho : o < 2 ^ 32) (he : e = (o + r) % 2 ^ 32) (hr : 1 ≤ r)
  (hr31 : r < 2 ^ 31)

include ho he in
theorem wheel_top : e / wheelBlock 4 = o / wheelBlock 4 := by
  simp only [wheelBlock]
  omega

include ho he hr hr31 in
/-- A node that expires within `2 ^ 31 - 1` ticks is not left behind by a tick. -/
theorem wheel_ahead : ∀ j < 4, (o + 1) % 2 ^ 32 / wheelBlock j ≠ o / wheelBlock j →
    e / wheelBlock j ≠ o / wheelBlock j := by
  intro j hj hleave
  have hle : wheelBlock j ≤ 2 ^ 26 := Nat.pow_le_pow_right (by decide) (by omega)
  rw [he]
  refine div_ne_of_tick_leaves (pow_dvd_pow 2 (by omega)) ho hr ?_ hleave
  omega

include ho he hr hr31 in
/-- Nodes that are not due are filed no lower than the list that is refiled. -/
theorem rank_listFor_next_le : (listFor ((o + 1) % 2 ^ 32) o).rank ≤ (listFor e o).rank := by
  simp only [listFor_eq, rank_wheelFile]
  exact wheelLevel_next_le (wheel_top ho he) (wheel_top ho rfl) (wheel_ahead ho he hr hr31)

include ho he hr hr31 in
/-- A node outside the refiled list is already where `add_node` would put it now. -/
theorem listFor_next_eq (hfile : (listFor ((o + 1) % 2 ^ 32) o).rank ≠ 0 →
      listFor e o ≠ listFor ((o + 1) % 2 ^ 32) o) :
    listFor e ((o + 1) % 2 ^ 32) = listFor e o := by
  have hlevel : wheelLevel wheelBlock 4 ((o + 1) % 2 ^ 32) e = wheelLevel wheelBlock 4 o e := by
    refine wheelLevel_next_eq wheelBlock_dvd (wheel_top ho he) (wheel_top ho rfl)
      (wheel_ahead ho he hr hr31) fun hl hne hdigit => ?_
    simp only [listFor_eq, rank_wheelFile] at hfile
    exact hfile hne (wheelFile_inj.mpr ⟨hl, by rw [hl]; exact hdigit⟩)
  rw [listFor_eq, listFor_eq, hlevel]

include ho he in
/-- A node of the refiled list goes to a lower one. -/
theorem rank_listFor_next_lt (hne : (listFor ((o + 1) % 2 ^ 32) o).rank ≠ 0)
    (hfile : listFor e o = listFor ((o + 1) % 2 ^ 32) o) :
    (listFor e ((o + 1) % 2 ^ 32)).rank < (listFor ((o + 1) % 2 ^ 32) o).rank := by
  simp only [listFor_eq, rank_wheelFile, wheelFile_inj] at hfile hne ⊢
  obtain ⟨hlevel, hdigit⟩ := hfile
  rw [hlevel] at hdigit
  exact wheelLevel_next_lt wheelBlock_dvd wheelBlock_pos (wheel_top ho he) (wheel_top ho rfl)
    hlevel hne hdigit

end Tick

/-- The near list of the present time holds the nodes that expire now. -/
theorem listFor_eq_near_iff {e o : ℕ} : listFor e o = .near (o &&& timeNearMask) ↔ e = o := by
  have hmask : ∀ x, x &&& timeNearMask = x % 2 ^ 8 := fun x => and_two_pow_sub_one_eq_mod x 8
  have hor : (e ||| timeNearMask = o ||| timeNearMask) ↔ e / 2 ^ 8 = o / 2 ^ 8 :=
    or_two_pow_sub_one_eq_iff e o 8
  unfold listFor
  split_ifs with h
  · rw [hor] at h
    rw [hmask, hmask, WheelList.near.injEq]
    omega
  · simp only [false_iff]
    rintro rfl
    exact h rfl

/-! ### The lists after refiling -/

theorem addNode_list (T : Timer) (node : TimerNode) (l : WheelList) : (addNode T node).list l =
      T.list l ++ if listFor node.expire T.time = l then [node] else [] := by
  by_cases h : listFor node.expire T.time = l
  · subst h
    simp [addNode, Timer.link]
  · simp [addNode, Timer.link, h, Function.update_of_ne (Ne.symm h)]

theorem foldl_addNode_time (nodes : List TimerNode) (T : Timer) :
    (nodes.foldl addNode T).time = T.time := by
  induction nodes generalizing T with
  | nil => rfl
  | cons node nodes ih => exact ih (addNode T node)

/-- Adding nodes one after the other appends to each list the nodes that belong there. -/
theorem foldl_addNode_list (nodes : List TimerNode) (T : Timer) (l : WheelList) :
    (nodes.foldl addNode T).list l =
      T.list l ++ nodes.filter fun n => listFor n.expire T.time = l := by
  induction nodes generalizing T with
  | nil => simp
  | cons node nodes ih =>
    rw [foldl_cons, ih, addNode_list, filter_cons, append_assoc]
    have htime : (addNode T node).time = T.time := rfl
    rw [htime]
    split_ifs <;> simp_all

theorem moveList_time (T : Timer) (l : WheelList) : (moveList T l).time = T.time :=
  foldl_addNode_time _ _

theorem moveList_list (T : Timer) (l l' : WheelList) :
    (moveList T l).list l' = (if l' = l then [] else T.list l') ++
      (T.list l).filter fun n => listFor n.expire T.time = l' := by
  rw [moveList, foldl_addNode_list]
  congr 1
  by_cases h : l' = l
  · subst h
    simp [Timer.linkClear]
  · simp [Timer.linkClear, h]

end Uboss.Core
