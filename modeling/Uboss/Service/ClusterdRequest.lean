import Mathlib.Data.List.Nodup
import Uboss.Lib.ClusterFrames
import Uboss.Math.Interleave
import Uboss.Service.Clusterd

/-!
# Requests of another cluster

The frames of any number of requests come in on one connection, those of one request in their order.
-/

namespace Uboss.Service

open Lib Math Function List

/-! ### One request -/

/-- The session of an answer or of a request that is handed over. -/
def ClusterdEvent.session : ClusterdEvent → Option UInt32
  | .request _ _ session _ | .invalid _ session => some session
  | .failed .. => none

namespace Clusterd

/-- What has been done about a session. -/
def about (s : Clusterd) (session : UInt32) : List ClusterdEvent :=
  s.log.filter (·.session = some session)

/-- The request is handed over. -/
def handedOver (fd : ℕ) (r : ClusterRequest) : ClusterdEvent :=
  .request fd (some r.addr) r.session.toUInt32 r.msg

/-- The frames of a request that have not come in, when this is what the service has of it. -/
inductive Progress (fd : ℕ) (s : Clusterd) (r : ClusterRequest) : List Frame → Prop
  | waiting {fs : List Frame} :
      r.Frames fs → s.largeRequest r.session.toUInt32 = none →
      s.about r.session.toUInt32 = [] → Progress fd s r fs
  | receiving {fs : List Frame} (strs : List (List UInt8)) {rest : List UInt8} (owner : ℕ) :
      Parts (ClusterRequest.packPart r.session) rest fs → strs.flatten ++ rest = r.msg →
      s.largeRequest r.session.toUInt32 = some
        ⟨some r.addr, .size (UInt32.ofNat r.msg.length) :: strs.map .bytes, owner⟩ →
      s.about r.session.toUInt32 = [] → Progress fd s r fs
  | done :
      s.largeRequest r.session.toUInt32 = none →
      s.about r.session.toUInt32 = [handedOver fd r] → Progress fd s r []

/-- Only what belongs to one session has changed. -/
structure Touches (session : UInt32) (s s' : Clusterd) : Prop where
  large : ∀ k, k ≠ session → s'.largeRequest k = s.largeRequest k
  about : ∀ k, k ≠ session → s'.about k = s.about k
  log : ∀ e ∈ s'.log, e ∈ s.log ∨ e.session = some session

variable {fd : ℕ} {s s' : Clusterd} {r : ClusterRequest} {f : Frame} {fs : List Frame}
  {session : UInt32}

theorem Progress.congr (hs : Progress fd s r fs)
    (hlarge : s'.largeRequest r.session.toUInt32 = s.largeRequest r.session.toUInt32)
    (habout : s'.about r.session.toUInt32 = s.about r.session.toUInt32) : Progress fd s' r fs := by
  cases hs with
  | waiting hfs hnone hlog => exact .waiting hfs (hlarge.trans hnone) (habout.trans hlog)
  | receiving strs owner hparts hmsg hsome hlog =>
    exact .receiving strs owner hparts hmsg (hlarge.trans hsome) (habout.trans hlog)
  | done hnone hlog => exact .done (hlarge.trans hnone) (habout.trans hlog)

theorem touches_setLarge (s : Clusterd) (session : UInt32) (req : Option LargeRequest) :
    Touches session s (s.setLarge session req) where
  large _ hk := update_of_ne hk ..
  about _ _ := rfl
  log _ he := .inl he

theorem about_emit (e : ClusterdEvent) (k : UInt32) :
    (s.emit e).about k = s.about k ++ [e].filter (·.session = some k) :=
  filter_append ..

theorem touches_emit {e : ClusterdEvent} (he : e.session = some session) :
    Touches session s (s.emit e) where
  large _ _ := rfl
  about k hk := by
    rw [about_emit, filter_cons_of_neg, filter_nil, append_nil]
    simpa [he] using hk.symm
  log e' he' := by
    rcases mem_append.mp he' with he' | he'
    · exact .inl he'
    · rw [mem_singleton.mp he']
      exact .inr he

theorem Touches.trans {s'' : Clusterd} (h : Touches session s s') (h' : Touches session s' s'') :
    Touches session s s'' where
  large k hk := (h'.large k hk).trans (h.large k hk)
  about k hk := (h'.about k hk).trans (h.about k hk)
  log e he := (h'.log e he).elim (h.log e) .inr

theorem Progress.socketData (hr : r.Valid) (hs : Progress fd s r (f :: fs)) :
    ∃ s', s.socketData fd (f.drop 2) = .ok s' ∧ Progress fd s' r fs ∧
      Touches r.session.toUInt32 s s' := by
  have hsize := hr.size
  have habout : ([handedOver fd r].filter (·.session = some r.session.toUInt32)) =
      [handedOver fd r] := by
    rw [filter_cons_of_pos (by simp [handedOver, ClusterdEvent.session]), filter_nil]
  cases hs with
  | waiting hfs hnone hlog =>
    cases hfs with
    | small hf hunpack =>
      refine ⟨s.emit (handedOver fd r), ?_, .done hnone ?_, touches_emit rfl⟩
      · simp only [Clusterd.socketData, hunpack, finish, hnone]
        rfl
      · rw [about_emit, hlog, habout, nil_append]
    | large hf hunpack hparts =>
      refine ⟨_, ?_, .receiving [] fd hparts rfl ?_ ?_, touches_setLarge s _
        (some ⟨some r.addr, [.size (UInt32.ofNat r.msg.length)], fd⟩)⟩
      · simp only [Clusterd.socketData, hunpack, addPiece, hnone]
        rfl
      · exact update_self ..
      · exact hlog
  | @receiving _ strs rest owner hparts hmsg hsome hlog =>
    cases hparts with
    | last hle hf =>
      have hbody := drop_of_lpack hf
      have hunpack := lunpackrequest_part r.session false rest
      have hconcat := lconcat_bytes r.msg (strs ++ [rest]) (by omega)
        (by rw [flatten_append, flatten_singleton, hmsg])
      rw [map_append, map_singleton] at hconcat
      refine ⟨(s.setLarge r.session.toUInt32 none).emit (handedOver fd r), ?_, .done ?_ ?_,
        (touches_setLarge s _ none).trans (touches_emit rfl)⟩
      · simp only [Clusterd.socketData, hbody, hunpack, finish, hsome, cons_append, hconcat]
        rfl
      · exact update_self ..
      · rw [about_emit, habout]
        change s.about _ ++ _ = _
        rw [hlog, nil_append]
    | more hlt hf hrest =>
      have hbody := drop_of_lpack hf
      have hunpack := lunpackrequest_part r.session true (rest.take multiPart)
      refine ⟨_, ?_, .receiving (strs ++ [rest.take multiPart]) owner hrest ?_ ?_ ?_,
        touches_setLarge s _ (some ⟨some r.addr, .size (UInt32.ofNat r.msg.length) ::
          (strs ++ [rest.take multiPart]).map .bytes, owner⟩)⟩
      · simp only [Clusterd.socketData, hbody, hunpack, addPiece, hsome, Option.getD_some,
          map_append, cons_append]
        rfl
      · rw [flatten_append, flatten_singleton, append_assoc, take_append_drop, hmsg]
      · exact update_self ..
      · exact hlog

/-! ### All requests -/

/-- How far the requests are. -/
structure Receives (fd : ℕ) (requests : List ClusterRequest) (s : Clusterd)
    (fss : List (List Frame)) : Prop where
  progress : List.Forall₂ (Progress fd s) requests fss
  log : ∀ e ∈ s.log, ∃ r ∈ requests, e.session = some r.session.toUInt32
  large : ∀ k, s.largeRequest k ≠ none → ∃ r ∈ requests, k = r.session.toUInt32

variable {requests : List ClusterRequest} {fss : List (List Frame)}

theorem Receives.socketData (hvalid : ∀ r ∈ requests, r.Valid)
    (hnodup : (requests.map fun r => r.session.toUInt32).Nodup) (hs : Receives fd requests s fss)
    {i : ℕ} (hf : fss[i]? = some (f :: fs)) :
    ∃ s', s.socketData fd (f.drop 2) = .ok s' ∧ Receives fd requests s' (fss.set i fs) := by
  obtain ⟨r, hr, hprogress, hset⟩ := forall₂_set hnodup hs.progress hf
  obtain ⟨s', hs', hprogress', htouches⟩ := hprogress.socketData (hvalid r hr)
  refine ⟨s', hs', hset _ _ hprogress' fun r' _ fs' hne h => ?_, fun e he => ?_, fun k hk => ?_⟩
  · exact h.congr (htouches.large _ hne) (htouches.about _ hne)
  · rcases htouches.log e he with he | he
    · exact hs.log e he
    · exact ⟨r, hr, he⟩
  · by_cases hkr : k = r.session.toUInt32
    · exact ⟨r, hr, hkr⟩
    · rw [htouches.large k hkr] at hk
      exact hs.large k hk

theorem Progress.nil (h : Progress fd s r []) :
    s.largeRequest r.session.toUInt32 = none ∧ s.about r.session.toUInt32 = [handedOver fd r] := by
  cases h with
  | waiting hfs _ _ => cases hfs
  | receiving _ _ hparts _ _ _ => cases hparts
  | done hnone hlog => exact ⟨hnone, hlog⟩

theorem Receives.finished (hnodup : (requests.map fun r => r.session.toUInt32).Nodup)
    (hs : Receives fd requests s fss) (hempty : ∀ fs ∈ fss, fs = []) :
    s.log.Perm (requests.map (handedOver fd)) ∧ ∀ session, s.largeRequest session = none := by
  have hdone := forall₂_nil hs.progress hempty
  constructor
  · refine perm_of_filter ClusterdEvent.session ?_ (fun x hx => ?_) fun e he => ?_
    · have hmap := List.Nodup.map (Option.some_injective UInt32) hnodup
      rw [map_map] at hmap ⊢
      exact hmap
    · obtain ⟨r, hr, rfl⟩ := mem_map.mp hx
      exact (hdone r hr).nil.2
    · obtain ⟨r, hr, hsession⟩ := hs.log e he
      exact ⟨handedOver fd r, mem_map_of_mem hr, hsession⟩
  · intro k
    by_contra hk
    obtain ⟨r, hr, rfl⟩ := hs.large k hk
    exact hk (hdone r hr).nil.1

theorem int32_toUInt32_injective : Function.Injective Int32.toUInt32 :=
  Function.LeftInverse.injective Int32.toInt32_toUInt32

theorem receives_create (h : List.Forall₂ ClusterRequest.Frames requests fss) :
    Receives fd requests create fss where
  progress := h.imp fun _ _ hfs => .waiting hfs rfl rfl
  log e he := by cases he
  large k hk := absurd rfl hk

/-- Every frame has the length of its contents, and whatever the order of the frames, as long as
those of one request stay in theirs, each request is handed over once with its address, session and
message. -/
theorem requests_received (fd : ℕ) (requests : List ClusterRequest)
    (hvalid : ∀ r ∈ requests, r.Valid) (hnodup : (requests.map ClusterRequest.session).Nodup) :
    ∃ fss, requests.mapM ClusterRequest.frames = .ok fss ∧ ∀ l, Interleaves fss l →
        packets l.flatten = l.map (List.drop 2) ∧
        ∃ s, (packets l.flatten).foldlM (fun s msg => s.socketData fd msg) create = .ok s ∧
          s.log.Perm (requests.map (handedOver fd)) ∧ ∀ session, s.largeRequest session = none := by
  obtain ⟨fss, hfss, hframes⟩ := exists_mapM fun r hr => ClusterRequest.frames_ok (hvalid r hr)
  have hkeys : (requests.map fun r => r.session.toUInt32).Nodup := by
    have hmap := List.Nodup.map int32_toUInt32_injective hnodup
    rwa [List.map_map] at hmap
  refine ⟨fss, hfss, fun l hl => ?_⟩
  have hpackets := packets_frames (hl.forall_mem (forall₂_right hframes fun _ _ h => h.isFrame))
  refine ⟨hpackets, ?_⟩
  obtain ⟨s, rest, hs, hreceives, hempty⟩ := hl.foldlM (fun s f => s.socketData fd (f.drop 2))
    (fun hs hf => hs.socketData hvalid hkeys hf) (receives_create hframes)
  refine ⟨s, ?_, hreceives.finished hkeys hempty⟩
  rw [hpackets, List.foldlM_map]
  exact hs

/-- A request to a service and a large one to a name. -/
def twoRequests : List ClusterRequest :=
  [⟨.id 7, 1, [104]⟩, ⟨.name [97, 98], 2, List.replicate 0x8000 105⟩]

theorem twoRequests_valid : ∀ r ∈ twoRequests, r.Valid := by
  have hname : 1 ≤ [(97 : UInt8), 98].length ∧ [(97 : UInt8), 98].length ≤ 255 := by decide
  have hsize : (List.replicate 0x8000 (105 : UInt8)).length ≤ 2 ^ 31 - 1 := by
    rw [length_replicate]
    decide
  refine forall_mem_cons.mpr ⟨⟨trivial, by decide, by decide⟩, ?_⟩
  exact forall_mem_cons.mpr ⟨⟨hname, by decide, hsize⟩, fun r hr => (by cases hr)⟩

theorem requests_received_two : ∃ fss, twoRequests.mapM ClusterRequest.frames = .ok fss ∧
      ∀ l, Interleaves fss l → packets l.flatten = l.map (List.drop 2) ∧
        ∃ s, (packets l.flatten).foldlM (fun s msg => s.socketData 3 msg) create = .ok s ∧
          s.log.Perm (twoRequests.map (handedOver 3)) ∧
          ∀ session, s.largeRequest session = none :=
  requests_received 3 twoRequests twoRequests_valid (by decide)

end Clusterd

end Uboss.Service
