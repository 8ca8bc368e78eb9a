import Mathlib.Data.UInt
import Uboss.Lib.ClusterFrames
import Uboss.Math.Interleave
import Uboss.Service.Clusterd

/-!
# Connections of other clusters

`large_request` has one entry for a session, whatever the connection, and the end of any connection
drops them all. A connection gets what it would get alone if its packages meet no entry of another
one, and it ends while the others have none.
-/

namespace Uboss.Service

open Lib Math Function List Option

/-- The connection that is answered. -/
def ClusterdEvent.fd : ClusterdEvent → ℕ
  | .request fd .. | .invalid fd _ | .failed fd _ => fd

/-- The address, session and message of a request of a connection. -/
def ClusterdEvent.requestOf (fd : ℕ) :
    ClusterdEvent → Option (Option ClusterAddress × UInt32 × List UInt8)
  | .request fd' addr session msg => if fd' = fd then some (addr, session, msg) else none
  | .invalid .. | .failed .. => none

namespace Clusterd

/-- The requests of a connection, in order. -/
def requestsOf (fd : ℕ) (s : Clusterd) : List (Option ClusterAddress × UInt32 × List UInt8) :=
  s.log.filterMap (ClusterdEvent.requestOf fd)

/-- What a package finds of its session is of its own connection, and the block for a message that
it completes can be allocated. -/
def FitsPackage (s : Clusterd) (fd : ℕ) (u : UnpackedRequest) : Prop :=
  ∀ req, s.largeRequest u.session = some req → req.owner = fd ∧ (u.padding = false →
      ∀ sz, (req.pieces ++ [u.msg]).head? = some (.size sz) → sz < 2 ^ 31)

/-- The call has to do with the entries of its own connection only. -/
def Apart (s : Clusterd) : SocketCommand → Prop
  | .data fd msg => ∀ u, lunpackrequest msg = .ok u → s.FitsPackage fd u
  | .opened _ => True
  | .closed fd | .error fd | .warning fd =>
    ∀ k req, s.largeRequest k = some req → req.owner = fd

/-- `t` is what `s` is for one connection. -/
structure Solo (fd : ℕ) (s t : Clusterd) : Prop where
  log : t.log = s.log.filter (·.fd = fd)
  large : ∀ k, t.largeRequest k = (s.largeRequest k).filter (·.owner = fd)

variable {s s' t : Clusterd} {c : SocketCommand} {fd : ℕ} {u : UnpackedRequest} {k : UInt32}

section

variable (h : Solo fd s t)
variable {e : ClusterdEvent} {req : Option LargeRequest} {msg : List UInt8} {fd' : ℕ}

include h

theorem Solo.requestsOf_eq : t.requestsOf fd = s.requestsOf fd := by
  rw [requestsOf, requestsOf, h.log]
  induction s.log with
  | nil => rfl
  | cons e log ih =>
    by_cases he : e.fd = fd
    · rw [filter_cons_of_pos (by simpa using he), filterMap_cons, filterMap_cons, ih]
    · have hnone : e.requestOf fd = none := by
        cases e with
        | request => exact if_neg he
        | invalid => rfl
        | failed => rfl
      rw [filter_cons_of_neg (by simpa using he), filterMap_cons, hnone, ih]

/-! ### Own packages -/

theorem Solo.emit (he : e.fd = fd) :
    Solo fd (s.emit e) (t.emit e) where
  log := by
    change t.log ++ [e] = (s.log ++ [e]).filter _
    rw [filter_append, filter_cons_of_pos (by simpa using he), filter_nil, h.log]
  large := h.large

theorem Solo.emit_other (he : e.fd ≠ fd) :
    Solo fd (s.emit e) t where
  log := by
    change t.log = (s.log ++ [e]).filter _
    rw [filter_append, filter_cons_of_neg (by simpa using he), filter_nil, append_nil, h.log]
  large := h.large

theorem Solo.setLarge (hreq : ∀ r, req = some r → r.owner = fd) :
    Solo fd (s.setLarge k req) (t.setLarge k req) where
  log := h.log
  large k' := by
    by_cases hk : k' = k
    · subst hk
      simp only [Clusterd.setLarge, update_self]
      cases req with
      | none => rfl
      | some r => rw [filter_some_pos (by simpa using hreq r rfl)]
    · simp only [Clusterd.setLarge, update_of_ne hk]
      exact h.large k'

/-- An entry of another connection is put in the place of nothing or of another connection's. -/
theorem Solo.setLarge_other (hreq : ∀ r, req = some r → r.owner ≠ fd)
    (hold : ∀ r, s.largeRequest k = some r → r.owner ≠ fd) :
    Solo fd (s.setLarge k req) t where
  log := h.log
  large k' := by
    rw [h.large k']
    by_cases hk : k' = k
    · subst hk
      simp only [Clusterd.setLarge, update_self]
      have hnone : ∀ o : Option LargeRequest, (∀ r, o = some r → r.owner ≠ fd) →
          o.filter (·.owner = fd) = none := fun o ho => by
        rw [filter_eq_none_iff]
        exact fun r hr => by simpa using ho r hr
      rw [hnone req hreq, hnone _ hold]
    · simp only [Clusterd.setLarge, update_of_ne hk]

theorem Solo.socketData (hapart : s.Apart (.data fd msg)) (hs : s.socketData fd msg = .ok s') :
    ∃ t', t.socketData fd msg = .ok t' ∧ Solo fd s' t' := by
  unfold Clusterd.socketData at hs ⊢
  cases hu : lunpackrequest msg with
  | error e =>
    rw [hu] at hs
    cases hs
    exact ⟨_, rfl, h.emit rfl⟩
  | ok u =>
    have hfits := hapart u hu
    have hlarge : t.largeRequest u.session = s.largeRequest u.session := by
      rw [h.large]
      cases hreq : s.largeRequest u.session with
      | none => rfl
      | some req => exact filter_some_pos (by simpa using (hfits req hreq).1)
    simp only [hu] at hs ⊢
    split_ifs at hs ⊢ with hpadding
    · cases hs
      refine ⟨_, rfl, ?_⟩
      unfold addPiece
      rw [hlarge]
      refine h.setLarge fun r hr => ?_
      obtain rfl := some_inj.mp hr
      cases hreq : s.largeRequest u.session with
      | none => rfl
      | some req => exact (hfits req hreq).1
    · unfold finish at hs ⊢
      rw [hlarge]
      cases hreq : s.largeRequest u.session with
      | none =>
        simp only [hreq] at hs ⊢
        cases hmsg : u.msg with
        | bytes msg =>
          rw [hmsg] at hs
          cases hs
          exact ⟨_, rfl, h.emit rfl⟩
        | size sz =>
          rw [hmsg] at hs
          cases hs
          exact ⟨t, rfl, h⟩
      | some req =>
        simp only [hreq] at hs ⊢
        obtain ⟨o, ho, rfl⟩ := map_eq_ok_iff.mp hs
        rw [ho]
        refine ⟨_, rfl, ?_⟩
        have hclear : Solo fd (s.setLarge u.session none) (t.setLarge u.session none) :=
          h.setLarge nofun
        cases o with
        | none => exact hclear.emit rfl
        | some msg => exact hclear.emit rfl

theorem Solo.socketData_other (hne : fd' ≠ fd) (hapart : s.Apart (.data fd' msg))
    (hs : s.socketData fd' msg = .ok s') : Solo fd s' t := by
  unfold Clusterd.socketData at hs
  cases hu : lunpackrequest msg with
  | error e =>
    rw [hu] at hs
    cases hs
    exact h.emit_other hne
  | ok u =>
    have hold : ∀ req, s.largeRequest u.session = some req → req.owner ≠ fd := fun req hreq =>
      (hapart u hu req hreq).1 ▸ hne
    simp only [hu] at hs
    split_ifs at hs with hpadding
    · cases hs
      refine h.setLarge_other (fun r hr => ?_) hold
      obtain rfl := some_inj.mp hr
      cases hreq : s.largeRequest u.session with
      | none => exact hne
      | some req => exact hold req hreq
    · unfold finish at hs
      cases hreq : s.largeRequest u.session with
      | none =>
        simp only [hreq] at hs
        cases hmsg : u.msg with
        | bytes msg =>
          rw [hmsg] at hs
          cases hs
          exact h.emit_other hne
        | size sz =>
          rw [hmsg] at hs
          cases hs
          exact h
      | some req =>
        simp only [hreq] at hs
        obtain ⟨o, -, rfl⟩ := map_eq_ok_iff.mp hs
        have hclear : Solo fd (s.setLarge u.session none) t := h.setLarge_other nofun hold
        cases o with
        | none => exact hclear.emit_other hne
        | some msg => exact hclear.emit_other hne

/-! ### All calls -/

theorem Solo.clear_other (hne : fd' ≠ fd)
    (hall : ∀ k req, s.largeRequest k = some req → req.owner = fd') :
    Solo fd { s with largeRequest := fun _ => none } t where
  log := h.log
  large k := by
    rw [h.large k, filter_eq_none_iff.mpr]
    · rfl
    · exact fun req hreq => by simpa [hall k req hreq] using hne

theorem Solo.clear :
    Solo fd { s with largeRequest := fun _ => none } { t with largeRequest := fun _ => none } where
  log := h.log
  large _ := rfl

theorem Solo.step (hfd : c.fd = fd) (hapart : s.Apart c) (hs : s.step c = .ok s') :
    ∃ t', t.step c = .ok t' ∧ Solo fd s' t' := by
  cases c with
  | data fd' msg =>
    obtain rfl : fd' = fd := hfd
    exact h.socketData hapart hs
  | opened fd' =>
    cases hs
    exact ⟨t, rfl, h⟩
  | closed fd' | error fd' | warning fd' =>
    cases hs
    exact ⟨_, rfl, h.clear⟩

theorem Solo.step_other (hfd : c.fd ≠ fd) (hapart : s.Apart c) (hs : s.step c = .ok s') :
    Solo fd s' t := by
  cases c with
  | data fd' msg => exact h.socketData_other hfd hapart hs
  | opened fd' =>
    cases hs
    exact h
  | closed fd' | error fd' | warning fd' =>
    cases hs
    exact h.clear_other hfd hapart

end

theorem Apart.exists_next (hapart : s.Apart c) : ∃ s', s.next c = some s' := by
  simp only [next, toOption_eq_some_iff]
  cases c with
  | opened fd' | closed fd' | error fd' | warning fd' => exact ⟨_, rfl⟩
  | data fd' msg =>
    change ∃ s', s.socketData fd' msg = .ok s'
    unfold Clusterd.socketData
    cases hu : lunpackrequest msg with
    | error e => exact ⟨_, rfl⟩
    | ok u =>
      dsimp only
      split_ifs with hpadding
      · exact ⟨_, rfl⟩
      · unfold finish
        cases hreq : s.largeRequest u.session with
        | none => cases u.msg <;> exact ⟨_, rfl⟩
        | some req =>
          have hsize := (hapart u hu req hreq).2 (by simpa using hpadding)
          refine exists_map_eq_ok ?_
          cases hpieces : req.pieces ++ [u.msg] with
          | nil => exact ⟨none, rfl⟩
          | cons piece pieces =>
            cases piece with
            | bytes str => exact ⟨none, rfl⟩
            | size sz =>
              have hlt : sz < 2 ^ 31 := hsize sz (by rw [hpieces]; rfl)
              exact ⟨_, if_pos hlt⟩

/-- The requests of a connection are those that its packages alone make, if every call meets its own
entries only. -/
theorem apart_connections {w : List SocketCommand} (hrun : Run next Apart create w s) :
    (∀ fd, ∃ t, Run next anyAction create (w.filter (·.fd = fd)) t ∧
      s.requestsOf fd = t.requestsOf fd) ∧
    ∀ c, s.Apart c → ∃ s', s.next c = some s' := by
  refine ⟨fun fd => ?_, fun c hc => hc.exists_next⟩
  have hcreate : Solo fd create create := ⟨rfl, fun _ => rfl⟩
  obtain ⟨t, hrun', hsolo⟩ := hrun.project (R := Solo fd) (fun c => c.fd = fd) hcreate
    (fun hfd hapart hs hsolo => by
      simp only [next, toOption_eq_some_iff] at hs ⊢
      exact hsolo.step (by simpa using hfd) hapart hs)
    (fun hfd hapart hs hsolo => by
      simp only [next, toOption_eq_some_iff] at hs
      exact hsolo.step_other (by simpa using hfd) hapart hs)
  exact ⟨t, hrun', hsolo.requestsOf_eq.symm⟩

theorem apart_of_unpack {msg : List UInt8} (hu : lunpackrequest msg = .ok u)
    (h : s.FitsPackage fd u) : s.Apart (.data fd msg) := by
  intro u' hu'
  rw [hu] at hu'
  cases hu'
  exact h

/-- A large request in which a small one of another connection comes in. -/
theorem apart_connections_two : ∃ s, Run next Apart create
        [.data 3 [1, 7, 0, 0, 0, 1, 0, 0, 0, 1, 0, 0, 0],
          .data 4 [0, 8, 0, 0, 0, 2, 0, 0, 0, 105], .data 3 [3, 1, 0, 0, 0, 104]] s ∧
      s.requestsOf 3 = [(some (.id 7), 1, [104])] ∧
      ∃ t, Run next anyAction create
          [.data 3 [1, 7, 0, 0, 0, 1, 0, 0, 0, 1, 0, 0, 0], .data 3 [3, 1, 0, 0, 0, 104]] t ∧
        s.requestsOf 3 = t.requestsOf 3 := by
  let s₁ := create.addPiece 3 ⟨some (.id 7), 1, .size 1, true⟩
  let s₂ := s₁.emit (.request 4 (some (.id 8)) 2 [105])
  let s₃ := (s₂.setLarge 1 none).emit (.request 3 (some (.id 7)) 1 [104])
  have hfirst : create.Apart (.data 3 [1, 7, 0, 0, 0, 1, 0, 0, 0, 1, 0, 0, 0]) :=
    apart_of_unpack (u := ⟨some (.id 7), 1, .size 1, true⟩) rfl nofun
  have hother : s₁.Apart (.data 4 [0, 8, 0, 0, 0, 2, 0, 0, 0, 105]) :=
    apart_of_unpack (u := ⟨some (.id 8), 2, .bytes [105], false⟩) rfl nofun
  have hlast : s₂.Apart (.data 3 [3, 1, 0, 0, 0, 104]) := by
    refine apart_of_unpack (u := ⟨none, 1, .bytes [104], false⟩) rfl fun req hreq => ?_
    cases hreq
    refine ⟨rfl, fun _ sz hsz => ?_⟩
    cases hsz
    decide
  have hrun := (((Run.nil create).snoc hfirst (u := s₁) rfl).snoc hother (u := s₂) rfl).snoc hlast
    (u := s₃) (by rfl : s₂.next _ = some s₃)
  obtain ⟨t, hrun', heq⟩ := (apart_connections hrun).1 3
  exact ⟨s₃, hrun, rfl, t, hrun', heq⟩

/-- The frames of a message of 32K: the first one, and the last one. -/
def mixedFrames (addr : UInt32) (msg : List UInt8) : List UInt8 × List UInt8 :=
  (1 :: (fillUint32 addr ++ fillUint32 1 ++ fillUint32 0x8000), ClusterRequest.packPart 1 false msg)

section Mixed

variable (addr : UInt32) (msg : List UInt8) (fd : ℕ) (s : Clusterd)

theorem next_mixedFrames_first : s.next (.data fd (mixedFrames addr msg).1) =
      some (s.addPiece fd ⟨some (.id addr), 1, .size 0x8000, true⟩) := by
  have hunpack := lunpackrequest_multiNumber addr 1 0x8000
  simp only [next, Clusterd.step, Clusterd.socketData, mixedFrames, hunpack]
  rfl

theorem next_mixedFrames_last : s.next (.data fd (mixedFrames addr msg).2) =
      (s.finish fd ⟨none, 1, .bytes msg, false⟩).toOption := by
  have hunpack := lunpackrequest_part 1 false msg
  simp only [next, Clusterd.step, Clusterd.socketData, mixedFrames, hunpack]
  rfl

theorem finish_eq_request {s : Clusterd} {u : UnpackedRequest} {req : LargeRequest}
    (hreq : s.largeRequest u.session = some req)
    (hconcat : lconcat (req.pieces ++ [u.msg]) = .ok (some msg)) :
    s.finish fd u =
      .ok ((s.setLarge u.session none).emit (.request fd req.addr u.session msg)) := by
  simp only [finish, hreq, hconcat]
  rfl

end Mixed

/-- Two connections with a large request each, of one session and one size: the first request is
answered as invalid. -/
theorem sessions_mixed :
    ¬ ∀ (w : List SocketCommand) (s t : Clusterd) (fd : ℕ), Run next anyAction create w s →
      Run next anyAction create (w.filter (·.fd = fd)) t → s.requestsOf fd = t.requestsOf fd := by
  intro hall
  obtain ⟨msg, hmsg⟩ : ∃ msg : List UInt8, msg.length = 0x8000 :=
    ⟨List.replicate 0x8000 0, List.length_replicate⟩
  have hmixed : exec next create [.data 3 (mixedFrames 7 msg).1, .data 4 (mixedFrames 8 msg).1,
      .data 3 (mixedFrames 7 msg).2] = some
      (((create.addPiece 3 ⟨some (.id 7), 1, .size 0x8000, true⟩).addPiece 4
        ⟨some (.id 8), 1, .size 0x8000, true⟩).setLarge 1 none |>.emit (.invalid 3 1)) := by
    simp only [exec, next_mixedFrames_first, next_mixedFrames_last, Option.bind_some]
    rfl
  have hconcat := lconcat_bytes msg [msg] (by rw [hmsg]; decide) (List.flatten_singleton ..)
  rw [hmsg] at hconcat
  have halone : exec next create [.data 3 (mixedFrames 7 msg).1, .data 3 (mixedFrames 7 msg).2] =
      some ((create.addPiece 3 ⟨some (.id 7), 1, .size 0x8000, true⟩).setLarge 1 none |>.emit
        (.request 3 (some (.id 7)) 1 msg)) := by
    simp only [exec, next_mixedFrames_first, next_mixedFrames_last, Option.bind_some]
    have hlarge : (create.addPiece 3 ⟨some (.id 7), 1, .size 0x8000, true⟩).largeRequest 1 =
        some ⟨some (.id 7), [.size (UInt32.ofNat 0x8000)], 3⟩ := rfl
    rw [finish_eq_request msg 3 (u := ⟨none, 1, .bytes msg, false⟩) hlarge hconcat]
    rfl
  have heq := hall _ _ _ 3 (run_of_exec hmixed) (run_of_exec halone)
  cases heq

end Clusterd

end Uboss.Service
