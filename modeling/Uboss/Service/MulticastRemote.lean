import Uboss.Math.Transition
import Uboss.Service.Multicastd

/-!
# Remote subscriptions

The nodes, each with a multicastd, and a link between any two of them that keeps the order of
messages. No channel is deleted.

## Main definitions

* `MulticastNode`, `MulticastNet` — a node with its suspended handlers, and the nodes with the links
* `MulticastNet.step` — one handler, or the part of one up to where it is suspended
* `MulticastNet.Quiet` — nothing is under way
* `MulticastNet.Settled` — the last member of a remote channel leaves when no call of `SUBR` is open

## Main results

* `MulticastNet.Inv.step` — what links and calls say about the owner of a channel
* `MulticastNet.subscribed_remote` — the owner knows the nodes that have members
-/

namespace Uboss.Service

open Math Function List Option Multicastd

/-- A message between two nodes. A call and its answer have the session of the caller. -/
inductive MulticastPacket
  | subr (session c : ℕ)
  | usubr (c : ℕ)
  /-- The answer to `SUBR`: whether there is no such channel, or an error. -/
  | reply (session : ℕ) (gone : Option Bool)
  deriving DecidableEq

/-- A suspended handler of `SUB`. -/
structure SubTask where
  source : LocalHandle
  c : ℕ
  wait : SubStage
  deriving DecidableEq

/-- A node. The suspended handlers are named by a session. -/
structure MulticastNode where
  s : Multicastd
  /-- `node_address`, as far as it is filled. -/
  nodeAddress : Harbor → Bool
  tasks : ℕ → Option SubTask
  session : ℕ

/-- The nodes, and the messages from one node to another, the oldest first. -/
structure MulticastNet where
  node : Harbor → MulticastNode
  link : Harbor → Harbor → List MulticastPacket

/-- What happens next in one of the nodes. -/
inductive MulticastNetAction
  | new (n : Harbor)
  /-- A service of the node subscribes. -/
  | sub (n : Harbor) (source : LocalHandle) (c : ℕ)
  /-- The data center answers a handler; `found`: it knows the owner of the channel. -/
  | address (n : Harbor) (session : ℕ) (found : Bool)
  | usub (n : Harbor) (source : LocalHandle) (c : ℕ)
  /-- The oldest message from one node to another is handled. -/
  | deliver (src dst : Harbor)
  deriving DecidableEq

namespace MulticastNode

def create (n : Harbor) : MulticastNode := ⟨.create n, fun _ => false, fun _ => none, 0⟩

variable (x : MulticastNode)

/-- A handler is suspended. -/
def suspend (task : SubTask) : MulticastNode :=
  { x with
    tasks := update x.tasks x.session (some task)
    session := x.session + 1 }

def setTask (session : ℕ) (task : Option SubTask) : MulticastNode :=
  { x with tasks := update x.tasks session task }

@[simp] theorem tasks_suspend_self (task : SubTask) :
    (x.suspend task).tasks x.session = some task := update_self ..

@[simp] theorem tasks_setTask_self (session : ℕ) (task : Option SubTask) :
    (x.setTask session task).tasks session = task := update_self ..

/-- The handler of `SUB`, up to its end or to the first point where it is suspended, and whether it
has called `SUBR`. -/
def sub (source : LocalHandle) (c : ℕ) : MulticastNode × Option MulticastPacket :=
  if x.s.mustCall c then
    if x.nodeAddress (owner c) then
      (x.suspend ⟨source, c, .call⟩, some (.subr x.session c))
    else (x.suspend ⟨source, c, .address⟩, none)
  else ({ x with s := (x.s.join source c).1 }, none)

/-- `get_address` has its answer; where it is `nil`, the handler fails. -/
def address (session : ℕ) (found : Bool) : Option (MulticastNode × Option (ℕ × MulticastPacket)) :=
  match x.tasks session with
  | some ⟨source, c, .address⟩ =>
    if found then
      some ({ x.setTask session (some ⟨source, c, .call⟩) with
        nodeAddress := update x.nodeAddress (owner c) true }, some (c, .subr session c))
    else some (x.setTask session none, none)
  | _ => none

/-- The handler of `USUB`, and whether it sends `USUBR`. The owner of a remote channel with members
is in `node_address`: somebody has called it. -/
def usub (source : LocalHandle) (c : ℕ) : MulticastNode × Option MulticastPacket :=
  let (s, ended) := x.s.usub source c
  ({ x with s }, if ended = .usubr then some (.usubr c) else none)

/-- A message from another node is handled, and what is answered. -/
def handle (node : Harbor) : MulticastPacket → MulticastNode × Option MulticastPacket
  | .subr session c =>
    match x.s.subr node c with
    | none => (x, some (.reply session none))
    | some (gone, s) => ({ x with s }, some (.reply session (some gone)))
  | .usubr c => ({ x with s := (x.s.usubr node c).getD x.s }, none)
  | .reply session gone =>
    match x.tasks session with
    | some ⟨source, c, .call⟩ =>
      match gone with
      | none => (x.setTask session none, none)
      | some gone => ({ x.setTask session none with s := (x.s.subReply source c gone).1 }, none)
    | _ => (x, none)

end MulticastNode

namespace MulticastNet

def create : MulticastNet := ⟨.create, fun _ _ => []⟩

variable (t : MulticastNet)

/-- A node changes and may write to a link. -/
def put (n : Harbor) (x : MulticastNode) (dst : Harbor) (p : Option MulticastPacket) :
    MulticastNet where
  node := update t.node n x
  link := update t.link n (update (t.link n) dst (t.link n dst ++ p.toList))

/-- The oldest message is taken from a link. -/
def take (src dst : Harbor) : MulticastNet :=
  { t with
    link := update t.link src
      (update (t.link src) dst (t.link src dst).tail) }

/-- One handler, or the part of one up to where it is suspended. -/
def step : MulticastNetAction → Option MulticastNet
  | .new n =>
    (t.node n).s.new.map fun r => { t with
      node := update t.node n { t.node n with s := r.2 } }
  | .sub n source c =>
    let (x, p) := (t.node n).sub source c
    some (t.put n x (owner c) p)
  | .address n session found =>
    ((t.node n).address session found).map fun r =>
      match r.2 with
      | some (c, p) => t.put n r.1 (owner c) (some p)
      | none => { t with node := update t.node n r.1 }
  | .usub n source c =>
    let (x, p) := (t.node n).usub source c
    some (t.put n x (owner c) p)
  | .deliver src dst =>
    match t.link src dst with
    | [] => none
    | p :: _ =>
      let (x, answer) := ((t.take src dst).node dst).handle src p
      some ((t.take src dst).put dst x src answer)

/-- No message is in flight and no handler is suspended. -/
def Quiet : Prop := (∀ n m, t.link n m = []) ∧ ∀ n session, (t.node n).tasks session = none

/-- The nodes to which `publish` sends what is published on a channel of the node. -/
def publishTo (n : Harbor) (c : ℕ) : Finset Harbor := ((t.node n).s.channelRemote c).getD ∅

/-- A message is the call of `SUBR` for the channel. -/
def IsSubr (c : ℕ) : MulticastPacket → Prop
  | .subr _ c' => c' = c
  | _ => False

/-- A message answers a call of the node for the channel. -/
def Answers (x : MulticastNode) (c : ℕ) : MulticastPacket → Prop
  | .reply session _ => (x.tasks session).map SubTask.c = some c
  | _ => False

instance (c : ℕ) : DecidablePred (IsSubr c) := fun p => by
  cases p <;> unfold IsSubr <;> infer_instance

instance (x : MulticastNode) (c : ℕ) : DecidablePred (Answers x c) := fun p => by
  cases p <;> unfold Answers <;> infer_instance

/-- When the last member of a remote channel leaves, no call of `SUBR` for the channel is on its way
to the owner, and no answer to one is on its way back. -/
def Settled : MulticastNetAction → Prop
  | .usub n source c =>
    owner c ≠ n → (t.node n).s.channel c = some {source} →
      (∀ p ∈ t.link n (owner c), ¬ IsSubr c p) ∧ ∀ p ∈ t.link (owner c) n, ¬ Answers (t.node n) c p
  | _ => True

instance : ∀ a, Decidable (t.Settled a)
  | .usub _ _ _ => inferInstanceAs (Decidable (_ → _ → _ ∧ _))
  | .new _ | .sub _ _ _ | .address _ _ _ | .deliver _ _ => .isTrue trivial

/-! ### The invariant -/

/-- What a node says alone. -/
structure NodeInv (n : Harbor) (x : MulticastNode) : Prop where
  harbor : x.s.harborId = n
  own : owner x.s.channelId = n
  counted : x.s.Counted
  fresh : ∀ session, x.tasks session ≠ none → session < x.session
  called : ∀ session source c, x.tasks session = some ⟨source, c, .call⟩ →
    x.nodeAddress (owner c) = true
  /-- `USUB` finds the owner in `node_address`. -/
  addressed : ∀ c, owner c ≠ n → x.s.channel c ≠ none → x.nodeAddress (owner c) = true

/-- What the node `x` with number `n`, the node `y` with number `m`, the messages `l` from `x` to
`y` and the messages `r` from `y` to `x` say about the channels of `y`. -/
structure PairInv (n m : Harbor) (x y : MulticastNode) (l r : List MulticastPacket) : Prop where
  /-- No unsubscription is behind a call for the same channel. -/
  order : l.Pairwise fun p q => ∀ c, IsSubr c p → q ≠ .usubr c
  subr : ∀ session c, .subr session c ∈ l → owner c = m ∧ session < x.session ∧
    ∀ task, x.tasks session = some task → task.wait = .call ∧ task.c = c
  reply : ∀ session gone, .reply session gone ∈ r → session < x.session ∧
    ∀ task, x.tasks session = some task → task.wait = .call ∧ owner task.c = m ∧
      (gone = some false → n ∈ (y.s.channelRemote task.c).getD ∅ ∧ .usubr task.c ∉ l)
  member : ∀ c, owner c = m → m ≠ n → x.s.channel c ≠ none →
    n ∈ (y.s.channelRemote c).getD ∅ ∧ .usubr c ∉ l

/-- Every node is sound, and so is every pair of nodes with the links between them. -/
structure Inv : Prop where
  node : ∀ n, NodeInv n (t.node n)
  pair : ∀ n m, PairInv n m (t.node n) (t.node m) (t.link n m) (t.link m n)

/-! ### Two nodes -/

namespace PairInv

variable {n m : Harbor} {x y : MulticastNode} {l r : List MulticastPacket}

theorem nil : PairInv n m (.create n) (.create m) [] [] where
  order := .nil
  subr _ _ h := absurd h (by simp)
  reply _ _ h := absurd h (by simp)
  member _ _ _ h := absurd rfl h

section

variable (h : PairInv n m x y l r)
include h

/-- Other messages, and other tables of the owner: the node stays where no unsubscription is on its
way. -/
theorem change {y' : MulticastNode} {l' r' : List MulticastPacket}
    (horder : l'.Pairwise fun p q => ∀ c, IsSubr c p → q ≠ .usubr c)
    (hsubr : ∀ session c, .subr session c ∈ l' → owner c = m ∧ session < x.session ∧
      ∀ task, x.tasks session = some task → task.wait = .call ∧ task.c = c) (hr : r' ⊆ r)
    (hkeep : ∀ c, n ∈ (y.s.channelRemote c).getD ∅ → .usubr c ∉ l →
      n ∈ (y'.s.channelRemote c).getD ∅ ∧ .usubr c ∉ l') : PairInv n m x y' l' r' where
  order := horder
  subr := hsubr
  reply session gone hmem := by
    obtain ⟨hsession, htask⟩ := h.reply session gone (hr hmem)
    refine ⟨hsession, fun task ht => ?_⟩
    obtain ⟨hwait, hc, hgone⟩ := htask task ht
    exact ⟨hwait, hc, fun hg => hkeep _ (hgone hg).1 (hgone hg).2⟩
  member c hc hmn hx := by
    obtain ⟨hin, hnot⟩ := h.member c hc hmn hx
    exact hkeep c hin hnot

theorem sublist {l' r' : List MulticastPacket} (hl : l'.Sublist l) (hr : r'.Sublist r) :
    PairInv n m x y l' r' :=
  h.change (h.order.sublist hl) (fun session c hmem => h.subr session c (hl.subset hmem)) hr.subset
    fun _ hin hnot => ⟨hin, fun hmem => hnot (hl.subset hmem)⟩

theorem owner_tables {y' : MulticastNode}
    (hy : ∀ c, n ∈ (y.s.channelRemote c).getD ∅ → .usubr c ∉ l →
      n ∈ (y'.s.channelRemote c).getD ∅) : PairInv n m x y' l r :=
  h.change h.order h.subr (Subset.refl r) fun c hin hnot => ⟨hy c hin hnot, hnot⟩

theorem append {p : MulticastPacket} (hp : ∀ c, p ≠ .usubr c)
    (hsubr : ∀ session c, p = .subr session c → owner c = m ∧ session < x.session ∧
      ∀ task, x.tasks session = some task → task.wait = .call ∧ task.c = c) :
    PairInv n m x y (l ++ [p]) r := by
  refine h.change (pairwise_append.mpr ⟨h.order, pairwise_singleton _ _, ?_⟩) ?_ (Subset.refl r)
    fun c hin hnot => ⟨hin, by simpa [(hp c).symm] using hnot⟩
  · intro _ _ q hq c _
    rw [mem_singleton.mp hq]
    exact hp c
  · intro session c hmem
    obtain hmem | heq := mem_append.mp hmem
    · exact h.subr session c hmem
    · exact hsubr session c (mem_singleton.mp heq).symm

theorem append_request {p : MulticastPacket} (hp : ∀ session gone, p ≠ .reply session gone) :
    PairInv n m x y l (r ++ [p]) where
  order := h.order
  subr := h.subr
  reply session gone hmem := by
    obtain hmem | heq := mem_append.mp hmem
    · exact h.reply session gone hmem
    · exact absurd (mem_singleton.mp heq).symm (hp session gone)
  member := h.member

theorem append_answer {session : ℕ} {gone : Option Bool} (hsession : session < x.session)
    (htask : ∀ task, x.tasks session = some task → task.wait = .call ∧ owner task.c = m ∧
      (gone = some false → n ∈ (y.s.channelRemote task.c).getD ∅ ∧ .usubr task.c ∉ l)) :
    PairInv n m x y l (r ++ [.reply session gone]) where
  order := h.order
  subr := h.subr
  reply session' gone' hmem := by
    obtain hmem | heq := mem_append.mp hmem
    · exact h.reply session' gone' hmem
    · cases mem_singleton.mp heq
      exact ⟨hsession, htask⟩
  member := h.member

theorem nodeAddress {nodeAddress : Harbor → Bool} : PairInv n m { x with nodeAddress } y l r :=
  ⟨h.order, h.subr, h.reply, h.member⟩

theorem suspend {task : SubTask} : PairInv n m (x.suspend task) y l r := by
  have htasks : ∀ session, session < x.session → (x.suspend task).tasks session = x.tasks session :=
    fun session hlt => update_of_ne (by omega) _ _
  have hsession : (x.suspend task).session = x.session + 1 := rfl
  refine ⟨h.order, fun session c hmem => ?_, fun session gone hmem => ?_, h.member⟩
  · obtain ⟨hc, hlt, htask⟩ := h.subr session c hmem
    rw [htasks session hlt]
    exact ⟨hc, by omega, htask⟩
  · obtain ⟨hlt, htask⟩ := h.reply session gone hmem
    rw [htasks session hlt]
    exact ⟨by omega, htask⟩

theorem setTask_none {session : ℕ} : PairInv n m (x.setTask session none) y l r := by
  have htasks : ∀ session' task, (x.setTask session none).tasks session' = some task →
      x.tasks session' = some task := by
    intro session' task ht
    by_cases heq : session' = session
    · subst heq
      simp [MulticastNode.setTask] at ht
    · exact (update_of_ne heq _ _).symm.trans ht
  refine ⟨h.order, fun session' c hmem => ?_, fun session' gone hmem => ?_, h.member⟩
  · obtain ⟨hc, hlt, htask⟩ := h.subr session' c hmem
    exact ⟨hc, hlt, fun task ht => htask task (htasks session' task ht)⟩
  · obtain ⟨hlt, htask⟩ := h.reply session' gone hmem
    exact ⟨hlt, fun task ht => htask task (htasks session' task ht)⟩

end

/-- A handler that asked the data center makes its call. No message has its session yet. -/
theorem setTask_call {session c : ℕ} {source : LocalHandle} (task : SubTask)
    (h : PairInv n m x y l r) (hx : x.tasks session = some ⟨source, c, .address⟩) :
    PairInv n m (x.setTask session (some task)) y l r := by
  have htasks : ∀ session', session' ≠ session →
      (x.setTask session (some task)).tasks session' = x.tasks session' :=
    fun session' hne => update_of_ne hne _ _
  refine ⟨h.order, fun session' c' hmem => ?_, fun session' gone hmem => ?_, h.member⟩
  · obtain ⟨hc, hlt, htask⟩ := h.subr session' c' hmem
    have hne : session' ≠ session := by
      rintro rfl
      exact absurd (htask _ hx).1 (by simp)
    rw [htasks session' hne]
    exact ⟨hc, hlt, htask⟩
  · obtain ⟨hlt, htask⟩ := h.reply session' gone hmem
    have hne : session' ≠ session := by
      rintro rfl
      exact absurd (htask _ hx).1 (by simp)
    rw [htasks session' hne]
    exact ⟨hlt, htask⟩

theorem append_subr {session c : ℕ} (source : LocalHandle) (h : PairInv n m x y l r)
    (hc : owner c = m) (hlt : session < x.session)
    (hx : x.tasks session = some ⟨source, c, .call⟩) :
    PairInv n m x y (l ++ [.subr session c]) r := by
  refine h.append (by simp) ?_
  rintro _ _ ⟨⟩
  refine ⟨hc, hlt, fun task ht => ?_⟩
  rw [hx] at ht
  cases ht
  exact ⟨rfl, rfl⟩

/-- Other tables of the client; channels of the owner that are new are known to it. -/
theorem tables {s : Multicastd} (h : PairInv n m x y l r)
    (hs : ∀ c, owner c = m → m ≠ n → s.channel c ≠ none →
      x.s.channel c ≠ none ∨ n ∈ (y.s.channelRemote c).getD ∅ ∧ .usubr c ∉ l) :
    PairInv n m { x with s } y l r where
  order := h.order
  subr := h.subr
  reply := h.reply
  member c hc hmn hx := (hs c hc hmn hx).elim (h.member c hc hmn) id

theorem append_usubr {s : Multicastd} {c : ℕ} (h : PairInv n m x y l r)
    (hsubr : ∀ p ∈ l, ¬ IsSubr c p) (hreply : ∀ p ∈ r, ¬ Answers x c p)
    (hchannel : s.channel = update x.s.channel c none) :
    PairInv n m { x with s } y (l ++ [.usubr c]) r where
  order := pairwise_append.mpr ⟨h.order, pairwise_singleton _ _, by
    intro p hp q hq c' hc'
    rw [mem_singleton.mp hq]
    rintro ⟨⟩
    exact hsubr p hp hc'⟩
  subr session c' hmem := h.subr session c' (by simpa using hmem)
  reply session gone hmem := by
    obtain ⟨hsession, htask⟩ := h.reply session gone hmem
    refine ⟨hsession, fun task ht => ?_⟩
    obtain ⟨hwait, hc, hgone⟩ := htask task ht
    have hne : task.c ≠ c := by
      rintro rfl
      exact hreply _ hmem (congrArg (Option.map SubTask.c) ht)
    refine ⟨hwait, hc, fun hg => ⟨(hgone hg).1, fun hin => ?_⟩⟩
    obtain hin | heq := mem_append.mp hin
    · exact (hgone hg).2 hin
    · cases mem_singleton.mp heq
      exact hne rfl
  member c' hc' hmn hx := by
    change s.channel c' ≠ none at hx
    rw [hchannel] at hx
    have hne : c' ≠ c := by
      rintro rfl
      exact hx (update_self ..)
    rw [update_of_ne hne] at hx
    obtain ⟨hin, hnot⟩ := h.member c' hc' hmn hx
    refine ⟨hin, fun hmem => ?_⟩
    obtain hmem | heq := mem_append.mp hmem
    · exact hnot hmem
    · cases mem_singleton.mp heq
      exact hne rfl

end PairInv

/-! ### One node -/

namespace NodeInv

variable {n : Harbor} {x : MulticastNode}

theorem create (n : Harbor) : NodeInv n (.create n) where
  harbor := rfl
  own := Fin.ext (Nat.mod_eq_of_lt n.isLt)
  counted := counted_create n
  fresh _ h := absurd rfl h
  called _ _ _ h := absurd h (by simp [MulticastNode.create])
  addressed _ _ h := absurd rfl h

variable (h : NodeInv n x)
include h

/-- Other tables. A new channel of another node comes from a node that was called. -/
theorem tables {s : Multicastd} (hharbor : s.harborId = x.s.harborId)
    (hid : owner s.channelId = owner x.s.channelId) (hcounted : s.Counted)
    (haddress : ∀ c, owner c ≠ n → s.channel c ≠ none →
      x.s.channel c ≠ none ∨ x.nodeAddress (owner c) = true) : NodeInv n { x with s } where
  harbor := hharbor.trans h.harbor
  own := hid.trans h.own
  counted := hcounted
  fresh := h.fresh
  called := h.called
  addressed c hc hx := (haddress c hc hx).elim (h.addressed c hc) id

theorem suspend {task : SubTask} (htask : task.wait = .call → x.nodeAddress (owner task.c) = true) :
    NodeInv n (x.suspend task) where
  harbor := h.harbor
  own := h.own
  counted := h.counted
  fresh session hne := by
    change session < x.session + 1
    by_cases heq : session = x.session
    · omega
    · have := h.fresh session fun h' => hne ((update_of_ne heq _ _).trans h')
      omega
  called session source c ht := by
    by_cases heq : session = x.session
    · subst heq
      have htask' : task = ⟨source, c, .call⟩ :=
        some.inj ((x.tasks_suspend_self task).symm.trans ht)
      subst htask'
      exact htask rfl
    · exact h.called session source c ((update_of_ne heq _ _).symm.trans ht)
  addressed := h.addressed

theorem setTask {session : ℕ} {task : Option SubTask} (hlt : session < x.session)
    (htask : ∀ source c, task = some ⟨source, c, .call⟩ → x.nodeAddress (owner c) = true) :
    NodeInv n (x.setTask session task) where
  harbor := h.harbor
  own := h.own
  counted := h.counted
  fresh session' hne := by
    by_cases heq : session' = session
    · exact heq ▸ hlt
    · exact h.fresh session' fun h' => hne ((update_of_ne heq _ _).trans h')
  called session' source c ht := by
    by_cases heq : session' = session
    · subst heq
      exact htask source c ((x.tasks_setTask_self session' task).symm.trans ht)
    · exact h.called session' source c ((update_of_ne heq _ _).symm.trans ht)
  addressed := h.addressed

theorem address {m : Harbor} :
    NodeInv n { x with nodeAddress := update x.nodeAddress m true } where
  harbor := h.harbor
  own := h.own
  counted := h.counted
  fresh := h.fresh
  called session source c ht := by
    by_cases heq : owner c = m
    · subst heq
      exact update_self ..
    · exact (update_of_ne heq _ _).trans (h.called session source c ht)
  addressed c hc hx := by
    by_cases heq : owner c = m
    · subst heq
      exact update_self ..
    · exact (update_of_ne heq _ _).trans (h.addressed c hc hx)

end NodeInv

/-! ### The net -/

variable {t}

variable {x : MulticastNode} {p : Option MulticastPacket}

theorem node_put_self {n : Harbor} {dst : Harbor} : (t.put n x dst p).node n = x := update_self ..

theorem node_put_of_ne {n k : Harbor} {dst : Harbor} (h : k ≠ n) :
    (t.put n x dst p).node k = t.node k :=
  update_of_ne h _ _

theorem link_put_self {n dst m : Harbor} : (t.put n x dst p).link n m =
      if m = dst then t.link n m ++ p.toList else t.link n m := by
  unfold put
  dsimp only
  rw [update_self]
  split_ifs with h
  · subst h
    exact update_self ..
  · exact update_of_ne h _ _

theorem link_put_of_ne {n dst k m : Harbor} (h : k ≠ n) : (t.put n x dst p).link k m = t.link k m :=
  congrFun (update_of_ne h _ _) m

theorem link_take_sublist {src dst n m : Harbor} :
    ((t.take src dst).link n m).Sublist (t.link n m) := by
  unfold take
  dsimp only
  by_cases hn : n = src
  · subst hn
    rw [update_self]
    by_cases hm : m = dst
    · subst hm
      rw [update_self]
      exact tail_sublist _
    · rw [update_of_ne hm]
  · rw [update_of_ne hn]

namespace Inv

variable {n : Harbor} {c : ℕ} {t' : MulticastNet} {rest : List MulticastPacket}

theorem create : Inv create where
  node := NodeInv.create
  pair _ _ := .nil

variable (h : Inv t)
variable {x : MulticastNode} {p : Option MulticastPacket} {source : LocalHandle} {session : ℕ}

include h

theorem take {src dst : Harbor} : Inv (t.take src dst) where
  node := h.node
  pair n m := (h.pair n m).sublist link_take_sublist link_take_sublist

/-- A node with other tables and tasks, which has written to another one. -/
theorem written {k dst : Harbor} (hnode : NodeInv k x)
    (hself : PairInv k k x x (if k = dst then t.link k k ++ p.toList else t.link k k)
      (if k = dst then t.link k k ++ p.toList else t.link k k))
    (hto : ∀ m, PairInv k m x (t.node m)
      (if m = dst then t.link k m ++ p.toList else t.link k m) (t.link m k))
    (hfrom : ∀ n, PairInv n k (t.node n) x (t.link n k)
      (if n = dst then t.link k n ++ p.toList else t.link k n)) : Inv (t.put k x dst p) := by
  refine ⟨fun n => ?_, fun n m => ?_⟩
  · by_cases hn : n = k
    · subst hn
      rw [node_put_self]
      exact hnode
    · rw [node_put_of_ne hn]
      exact h.node n
  · by_cases hn : n = k
    · subst hn
      by_cases hm : m = n
      · subst hm
        rw [node_put_self, link_put_self]
        exact hself
      · rw [node_put_self, node_put_of_ne hm, link_put_self, link_put_of_ne hm]
        exact hto m
    · by_cases hm : m = k
      · subst hm
        rw [node_put_self, node_put_of_ne hn, link_put_self, link_put_of_ne hn]
        exact hfrom n
      · rw [node_put_of_ne hn, node_put_of_ne hm, link_put_of_ne hn, link_put_of_ne hm]
        exact h.pair n m

theorem client {k dst : Harbor} (hnode : NodeInv k x)
    (hremote : x.s.channelRemote = (t.node k).s.channelRemote)
    (hp : ∀ session gone, p ≠ some (.reply session gone)) (hpair : ∀ m, PairInv k m x (t.node m)
      (if m = dst then t.link k m ++ p.toList else t.link k m) (t.link m k)) :
    Inv (t.put k x dst p) := by
  -- What is written is no answer, so the other side does not look at it.
  have hlink : ∀ {n : Harbor} {y : MulticastNode} {l : List MulticastPacket},
      PairInv n k y (t.node k) l (t.link k n) →
        PairInv n k y x l (if n = dst then t.link k n ++ p.toList else t.link k n) := by
    intro n y l hn
    replace hn : PairInv n k y x l (t.link k n) := hn.owner_tables fun c hin _ => by rwa [hremote]
    split_ifs
    · cases p with
      | none => simpa using hn
      | some p => exact hn.append_request fun session gone heq => hp session gone (heq ▸ rfl)
    · exact hn
  exact h.written hnode (hlink (hpair k)) hpair fun n => hlink (h.pair n k)

theorem owner {k dst : Harbor} {s : Multicastd} (hnode : NodeInv k { t.node k with s })
    (hchannel : s.channel = (t.node k).s.channel)
    (hp : ∀ q ∈ p, ∃ session gone, q = .reply session gone)
    (hpair : ∀ n, PairInv n k (t.node n) { t.node k with s } (t.link n k)
      (if n = dst then t.link k n ++ p.toList else t.link k n)) :
    Inv (t.put k { t.node k with s } dst p) := by
  have hlink : ∀ {m : Harbor} {y : MulticastNode} {r : List MulticastPacket},
      PairInv k m (t.node k) y (t.link k m) r → PairInv k m { t.node k with s } y
          (if m = dst then t.link k m ++ p.toList else t.link k m) r := by
    intro m y r hm
    have hm' : PairInv k m { t.node k with s } y (t.link k m) r :=
      hm.tables fun c _ _ hc => .inl (hchannel ▸ hc)
    split_ifs
    · cases p with
      | none => simpa using hm'
      | some p =>
        obtain ⟨session, gone, rfl⟩ := hp p rfl
        exact hm'.append (by simp) (by simp)
    · exact hm'
  exact h.written hnode (hlink (hpair k)) (fun m => hlink (h.pair k m)) hpair

theorem sub (hstep : t.step (.sub n source c) = some t') : Inv t' := by
  have hn := h.node n
  simp only [step, MulticastNode.sub] at hstep
  split_ifs at hstep with hcall haddress <;> cases hstep
  · refine h.client (hn.suspend fun _ => haddress) rfl (by simp) fun m => ?_
    split_ifs with hm
    · exact (h.pair n m).suspend.append_subr source hm.symm (Nat.lt_succ_self _)
        (MulticastNode.tasks_suspend_self ..)
    · exact (h.pair n m).suspend
  · refine h.client (hn.suspend fun hwait => absurd hwait (by simp)) rfl (by simp) fun m => ?_
    simp only [toList_none, append_nil, ite_self]
    exact (h.pair n m).suspend
  · obtain ⟨hharbor, hid, hremote, hchannel⟩ := join_frame (t.node n).s source c
    have hjoin : ∀ c', ((t.node n).s.join source c).1.channel c' ≠ none →
        (t.node n).s.channel c' ≠ none := fun c' hne hnone => hne ((hchannel c').mpr hnone)
    refine h.client (hn.tables hharbor (congrArg Service.owner hid) hn.counted.join
      fun c' _ hc' => .inl (hjoin c' hc')) hremote (by simp) fun m => ?_
    simp only [toList_none, append_nil, ite_self]
    exact (h.pair n m).tables fun c' _ _ hc' => .inl (hjoin c' hc')

theorem quiet_client {k : Harbor} (hnode : NodeInv k x)
    (hremote : x.s.channelRemote = (t.node k).s.channelRemote)
    (hpair : ∀ m, PairInv k m x (t.node m) (t.link k m) (t.link m k)) :
    Inv { t with node := update t.node k x } := by
  have hput : t.put k x k none = { t with node := update t.node k x } := by
    unfold put
    rw [toList_none, append_nil, update_eq_self, update_eq_self]
  rw [← hput]
  refine h.client hnode hremote (by simp) fun m => ?_
  simp only [toList_none, append_nil, ite_self]
  exact hpair m

theorem new (hstep : t.step (.new n) = some t') : Inv t' := by
  obtain ⟨⟨id, s⟩, hs, rfl⟩ := map_eq_some_iff.mp hstep
  have hn := h.node n
  obtain ⟨hharbor, hid, hremote, hchannel⟩ := new_frame hs
  rw [hn.own] at hchannel
  refine h.quiet_client (hn.tables hharbor hid (hn.counted.new hs) fun c hc hne => ?_) hremote
    fun m => (h.pair n m).tables fun c hc hmn hne => ?_
  · exact .inl ((hchannel c hne).resolve_right hc)
  · exact .inl ((hchannel c hne).resolve_right fun hcn => hmn (hc.symm.trans hcn))

theorem address {found : Bool} (hstep : t.step (.address n session found) = some t') : Inv t' := by
  have hn := h.node n
  obtain ⟨⟨x, p⟩, hx, rfl⟩ := map_eq_some_iff.mp hstep
  unfold MulticastNode.address at hx
  split at hx
  · rename_i source c htask
    have hlt := hn.fresh session (by rw [htask]; simp)
    split_ifs at hx <;> cases hx
    · refine h.client ?_ rfl (by simp) fun m => ?_
      · refine hn.address.setTask hlt fun source' c' heq => ?_
        cases heq
        exact update_self ..
      · have hm := (h.pair n m).setTask_call ⟨source, c, .call⟩ htask
        split_ifs with hmc
        · exact (hm.append_subr source hmc.symm hlt
            (MulticastNode.tasks_setTask_self ..)).nodeAddress
        · exact hm.nodeAddress
    · exact h.quiet_client (hn.setTask hlt fun _ _ heq => absurd heq (by simp)) rfl
        fun m => (h.pair n m).setTask_none
  · cases hx

theorem usub (hsettled : t.Settled (.usub n source c)) (hstep : t.step (.usub n source c) = some t')
    : Inv t' := by
  have hn := h.node n
  obtain ⟨hharbor, hid, hremote, hkeep, hleave⟩ := usub_frame (t.node n).s source c
  have heq : t' = t.put n { t.node n with s := ((t.node n).s.usub source c).1 } (Service.owner c)
      (if ((t.node n).s.usub source c).2 = .usubr then some (.usubr c) else none) :=
    (some.inj hstep).symm
  rw [heq]
  by_cases hended : ((t.node n).s.usub source c).2 = .usubr
  · obtain ⟨howner, hone, ⟨group, hgroup, hmem⟩, hchannel⟩ := hleave hended
    rw [hn.harbor] at howner
    -- The member that leaves is the only one.
    have hcount := hn.counted c
    rw [hone, hgroup, map_some, Option.some.injEq] at hcount
    have hsingle : group = {source} := by
      obtain ⟨x, hx⟩ := Finset.card_eq_one.mp (by omega : group.card = 1)
      rw [hx, Finset.mem_singleton] at hmem
      rw [hx, hmem]
    obtain ⟨hsubr, hreply⟩ := hsettled howner (hsingle ▸ hgroup)
    have hgone : ∀ c', ((t.node n).s.usub source c).1.channel c' ≠ none →
        (t.node n).s.channel c' ≠ none := by
      intro c' hne hnone
      rw [hchannel] at hne
      by_cases hc : c' = c
      · exact hne (hc ▸ update_self ..)
      · exact hne ((update_of_ne hc _ _).trans hnone)
    rw [if_pos hended]
    refine h.client (hn.tables hharbor (congrArg Service.owner hid) hn.counted.usub
      fun c' _ hc' => .inl (hgone c' hc')) hremote (by simp) fun m => ?_
    split_ifs with hm
    · subst hm
      exact (h.pair n _).append_usubr hsubr hreply hchannel
    · exact (h.pair n m).tables fun c' _ _ hc' => .inl (hgone c' hc')
  · rw [if_neg hended]
    refine h.client (hn.tables hharbor (congrArg Service.owner hid) hn.counted.usub
      fun c' _ hc' => .inl (hkeep hended c' hc')) hremote (by simp) fun m => ?_
    simp only [toList_none, append_nil, ite_self]
    exact (h.pair n m).tables fun c' _ _ hc' => .inl (hkeep hended c' hc')

theorem deliver_subr {src dst : Harbor} {session c : ℕ}
    (hlink : t.link src dst = .subr session c :: rest) :
    Inv ((t.take src dst).put dst (((t.take src dst).node dst).handle src (.subr session c)).1 src
      (((t.take src dst).node dst).handle src (.subr session c)).2) := by
  have hn : NodeInv dst (t.node dst) := h.node dst
  have hpair := h.pair src dst
  rw [hlink] at hpair
  obtain ⟨hc, hlt, htask⟩ := hpair.subr session c mem_cons_self
  have hrest : (t.take src dst).link src dst = rest := by simp [MulticastNet.take, hlink]
  -- No unsubscription for this channel is behind the call.
  have hbehind : .usubr c ∉ (t.take src dst).link src dst := by
    intro hin
    rw [hrest] at hin
    exact (pairwise_cons.mp hpair.order).1 _ hin c rfl rfl
  cases hsubr : (t.node dst).s.subr src c with
  | none =>
    have hhandle : ((t.take src dst).node dst).handle src (.subr session c) =
        (t.node dst, some (.reply session none)) := by
      change (t.node dst).handle src (.subr session c) = _
      simp only [MulticastNode.handle, hsubr]
    rw [hhandle]
    refine h.take.owner (s := (t.node dst).s) hn rfl (by simp) fun n => ?_
    split_ifs with hns
    · subst hns
      refine (h.take.pair n dst).append_answer hlt fun task ht => ?_
      obtain ⟨hwait, htc⟩ := htask task ht
      exact ⟨hwait, htc ▸ hc, fun hgone => absurd hgone (by simp)⟩
    · exact h.take.pair n dst
  | some r =>
    obtain ⟨gone, s⟩ := r
    obtain ⟨hharbor, hid, hchannel, hgrow, hmember⟩ := subr_frame hsubr
    have hhandle : ((t.take src dst).node dst).handle src (.subr session c) =
        ({ t.node dst with s }, some (.reply session (some gone))) := by
      change (t.node dst).handle src (.subr session c) = _
      simp only [MulticastNode.handle, hsubr]
    rw [hhandle]
    refine h.take.owner (hn.tables hharbor (congrArg Service.owner hid) (hn.counted.subr hsubr)
      fun c' _ hc' => .inl (hchannel ▸ hc')) hchannel (by simp) fun n => ?_
    have hpair' : PairInv n dst (t.node n) { t.node dst with s } ((t.take src dst).link n dst)
        ((t.take src dst).link dst n) :=
      (h.take.pair n dst).owner_tables fun c' hin _ => hgrow n c' hin
    split_ifs with hns
    · subst hns
      refine hpair'.append_answer hlt fun task ht => ?_
      obtain ⟨hwait, rfl⟩ := htask task ht
      exact ⟨hwait, hc, fun hgone => ⟨hmember (some.inj hgone), hbehind⟩⟩
    · exact hpair'

theorem deliver_usubr {src dst : Harbor} (hlink : t.link src dst = .usubr c :: rest) :
    Inv ((t.take src dst).put dst (((t.take src dst).node dst).handle src (.usubr c)).1 src
      (((t.take src dst).node dst).handle src (.usubr c)).2) := by
  have hn : NodeInv dst (t.node dst) := h.node dst
  change Inv ((t.take src dst).put dst
    { t.node dst with s := ((t.node dst).s.usubr src c).getD (t.node dst).s } src none)
  cases husubr : (t.node dst).s.usubr src c with
  | none =>
    refine h.take.owner (s := (t.node dst).s) hn rfl (by simp) fun n => ?_
    simp only [toList_none, append_nil, ite_self]
    exact h.take.pair n dst
  | some s =>
    obtain ⟨hharbor, hid, hchannel, hkeep⟩ := usubr_frame husubr
    rw [getD_some]
    refine h.take.owner (hn.tables hharbor (congrArg Service.owner hid)
      (hn.counted.usubr husubr) fun c' _ hc' => .inl (hchannel ▸ hc')) hchannel (by simp)
      fun n => ?_
    simp only [toList_none, append_nil, ite_self]
    refine ((h.pair n dst).owner_tables fun c' hin hnot => hkeep n c' hin ?_).sublist
      link_take_sublist link_take_sublist
    -- The node itself leaves, and its unsubscription was still on the way.
    by_cases hns : n = src
    · subst hns
      refine .inr fun hcc => hnot ?_
      rw [hlink, hcc]
      exact mem_cons_self
    · exact .inl hns

theorem deliver_reply {src dst : Harbor} {gone : Option Bool}
    (hlink : t.link src dst = .reply session gone :: rest) :
    Inv ((t.take src dst).put dst
      (((t.take src dst).node dst).handle src (.reply session gone)).1 src
      (((t.take src dst).node dst).handle src (.reply session gone)).2) := by
  have hn : NodeInv dst (t.node dst) := h.node dst
  obtain ⟨hlt, htask⟩ := (h.pair dst src).reply session gone (by rw [hlink]; simp)
  change Inv ((t.take src dst).put dst ((t.node dst).handle src (.reply session gone)).1 src
    ((t.node dst).handle src (.reply session gone)).2)
  have hsame : Inv ((t.take src dst).put dst (t.node dst) src none) := by
    refine h.take.client hn rfl (by simp) fun m => ?_
    simp only [toList_none, append_nil, ite_self]
    exact h.take.pair dst m
  simp only [MulticastNode.handle]
  cases ht : (t.node dst).tasks session with
  | none => exact hsame
  | some task =>
    obtain ⟨source, c, wait⟩ := task
    obtain ⟨rfl, hc, hgone⟩ := htask _ ht
    have hn' : NodeInv dst ((t.node dst).setTask session none) :=
      hn.setTask hlt fun _ _ heq => absurd heq (by simp)
    cases gone with
    | none =>
      refine h.take.client hn' rfl (by simp) fun m => ?_
      simp only [toList_none, append_nil, ite_self]
      exact (h.take.pair dst m).setTask_none
    | some gone =>
      obtain ⟨hharbor, hid, hremote, hchannel⟩ := subReply_frame (t.node dst).s source c gone
      have hknown := hn.called session source c ht
      refine h.take.client (hn'.tables hharbor (congrArg Service.owner hid) hn.counted.subReply
        fun c' _ hne => (hchannel c' hne).imp id fun heq : c' = c ∧ _ => heq.1 ▸ hknown) hremote
        (by simp) fun m => ?_
      simp only [toList_none, append_nil, ite_self]
      refine (h.take.pair dst m).setTask_none.tables fun c' hcm _ hne => ?_
      refine (hchannel c' hne).imp id fun heq => ?_
      -- A new channel: the owner has told so, and it has this node.
      obtain ⟨rfl, rfl⟩ := heq
      have hms : m = src := hcm.symm.trans hc
      subst hms
      obtain ⟨hin, hnot⟩ := hgone rfl
      exact ⟨hin, fun hmem => hnot (link_take_sublist.subset hmem)⟩

/-- Every step keeps what links and calls say about the owner of a channel. -/
theorem step {a : MulticastNetAction} (hsettled : t.Settled a) (hstep : t.step a = some t') :
    Inv t' := by
  cases a with
  | new n => exact h.new hstep
  | sub n source c => exact h.sub hstep
  | address n session found => exact h.address hstep
  | usub n source c => exact h.usub hsettled hstep
  | deliver src dst =>
    simp only [MulticastNet.step] at hstep
    split at hstep
    · cases hstep
    · rename_i p rest hlink
      cases hstep
      cases p with
      | subr session c => exact h.deliver_subr hlink
      | usubr c => exact h.deliver_usubr hlink
      | reply session gone => exact h.deliver_reply hlink

end Inv

variable {w : List MulticastNetAction} {t' : MulticastNet} {k : Harbor}

/-! ### Runs -/

/-- The nodes whose handlers run in a step. -/
def handlers : MulticastNetAction → List Harbor
  | .new n | .sub n _ _ | .address n _ _ | .usub n _ _ => [n]
  | .deliver src dst => [src, dst]

/-- A node that takes no part keeps its state, and nothing is written by it. -/
theorem step_frame {a : MulticastNetAction} (hstep : t.step a = some t') (hk : k ∉ handlers a) :
    t'.node k = t.node k ∧ t'.link k = t.link k := by
  have hput : ∀ (t : MulticastNet) {n : Harbor} (x : MulticastNode) (dst : Harbor)
      (p : Option MulticastPacket), k ≠ n →
        (t.put n x dst p).node k = t.node k ∧ (t.put n x dst p).link k = t.link k :=
    fun t n x dst p hne => ⟨node_put_of_ne hne, funext fun _ => link_put_of_ne hne⟩
  cases a with
  | new n =>
    obtain ⟨r, -, rfl⟩ := map_eq_some_iff.mp hstep
    exact ⟨update_of_ne (by simpa [handlers] using hk) _ _, rfl⟩
  | sub n source c =>
    cases hstep
    exact hput t _ _ _ (by simpa [handlers] using hk)
  | address n session found =>
    obtain ⟨⟨x, p⟩, -, rfl⟩ := map_eq_some_iff.mp hstep
    have hne : k ≠ n := by simpa [handlers] using hk
    cases p with
    | none => exact ⟨update_of_ne hne _ _, rfl⟩
    | some p => exact hput t _ _ _ hne
  | usub n source c =>
    cases hstep
    exact hput t _ _ _ (by simpa [handlers] using hk)
  | deliver src dst =>
    obtain ⟨hsrc, hdst⟩ : k ≠ src ∧ k ≠ dst := by simpa [handlers] using hk
    simp only [step] at hstep
    split at hstep <;> cases hstep
    obtain ⟨hnode, hlink⟩ := hput (t.take src dst)
      (((t.take src dst).node dst).handle src ‹_›).1 src
      (((t.take src dst).node dst).handle src ‹_›).2 hdst
    exact ⟨hnode, hlink.trans (update_of_ne hsrc _ _)⟩

theorem exec_frame (hexec : exec step t w = some t') (hk : ∀ a ∈ w, k ∉ handlers a) :
    t'.node k = t.node k ∧ t'.link k = t.link k := by
  induction w generalizing t with
  | nil =>
    cases hexec
    exact ⟨rfl, rfl⟩
  | cons a w ih =>
    obtain ⟨u, hu, hrest⟩ := bind_eq_some_iff.mp hexec
    obtain ⟨hnode, hlink⟩ := step_frame hu (hk a mem_cons_self)
    obtain ⟨hnode', hlink'⟩ := ih hrest fun a ha => hk a (mem_cons_of_mem _ ha)
    exact ⟨hnode'.trans hnode, hlink'.trans hlink⟩

/-- Two services of node 2 subscribe while the first call is open. The one that is answered first
leaves before the other one is answered. -/
def overlapping : List MulticastNetAction :=
  [.new 1, .sub 2 7 1, .address 2 0 true, .sub 2 8 1, .deliver 2 1, .deliver 2 1, .deliver 1 2,
    .usub 2 7 1, .deliver 1 2, .deliver 2 1]

end MulticastNet

end Uboss.Service
