import Uboss.Module.HarborDecode

/-!
# Streams that no harbor sends

`push_socket_data` takes whatever the peer sends. A length that is too large closes the link. A
length that is too small for the cookie is not noticed: `forward_local_messsage` is called as soon
as the body is complete, and reads the cookie from before the buffer.
-/

namespace Uboss.Module

open Math List

/-- What a peer sends after the handshake, in any non-empty pieces: the only access that can be out
of bounds is that to the cookie, and there is none if and only if every complete frame, up to one
that is too long, has room for the cookie. -/
theorem pushSocketData_ok_iff (refused : List HarborCall → Bool) (h : Harbor) (fd id : ℕ)
    (hlinked : Linked h fd id) (hstatus : (h.s id).status = .header)
    (chunks : List (List UInt8)) (hchunks : ∀ c ∈ chunks, c ≠ []) :
    (∀ fault, chunks.foldlM (fun h c => pushSocketData refused h ⟨fd, c⟩) h = .error fault →
      fault = .cookieBounds) ∧
    ((∃ h', chunks.foldlM (fun h c => pushSocketData refused h ⟨fd, c⟩) h = .ok h') ↔
      ∀ frames rest, Cuts cutBody chunks.flatten frames rest →
        ∀ body ∈ frames, headerCookieLength ≤ body.length) := by
  have hstart : Represents h id h [] [] :=
    ⟨.refl h, keeps_nil hstatus hlinked.size_length hlinked.read_eq⟩
  have hdecodes : Decodes cutBody HasCookie (Represents h id) .cookieBounds [] chunks.flatten
      (chunks.foldlM (fun h c => pushSocketData refused h ⟨fd, c⟩) h) :=
    pushSocketData_chunks hlinked.found hchunks hstart
  exact ⟨fun fault hfault => hdecodes.error_eq hfault,
    hdecodes.exists_ok_iff fun _ _ _ hrep => hrep.2.cutBody_eq_none⟩

theorem linkHarbor_linked_header : Linked (linkHarbor 1 2 5 .header) 5 2 where
  found := by decide
  connected := by decide
  size_length := rfl
  read_eq := rfl
  status_eq := .inr rfl

/-- A frame of three bytes in two pieces. -/
theorem pushSocketData_ok_iff_three : Linked (linkHarbor 1 2 5 .header) 5 2 ∧
      ¬ ∃ h', [[0, 0, 0], [3, 1, 2, 3]].foldlM
        (fun h c => pushSocketData (fun _ => false) h ⟨5, c⟩) (linkHarbor 1 2 5 .header) =
          .ok h' := by
  have hiff := (pushSocketData_ok_iff (fun _ => false) (linkHarbor 1 2 5 .header) 5 2
    linkHarbor_linked_header rfl [[0, 0, 0], [3, 1, 2, 3]] (by decide)).2
  refine ⟨linkHarbor_linked_header, fun hok => ?_⟩
  have hcuts : Cuts cutBody [[0, 0, 0], [3, 1, 2, 3]].flatten [[1, 2, 3]] [] :=
    .cons (by decide) (.nil _)
  exact absurd (hiff.mp hok _ _ hcuts [1, 2, 3] (List.mem_singleton_self _)) (by decide)

/-- A frame without a body makes `forward_local_messsage` read before its buffer. -/
theorem short_frame_out_of_bounds : ¬ ∀ chunks : List (List UInt8), (∀ c ∈ chunks, c ≠ []) →
      ∃ h', chunks.foldlM (fun h c => pushSocketData (fun _ => false) h ⟨5, c⟩)
        (linkHarbor 1 2 5 .header) = .ok h' := by
  intro hall
  obtain ⟨h', hok⟩ := hall [[0, 0, 0, 0, 7]] (by decide)
  have hfault : [[0, 0, 0, 0, 7]].foldlM
      (fun h c => pushSocketData (fun _ => false) h ⟨5, c⟩) (linkHarbor 1 2 5 .header) =
        .error .cookieBounds := rfl
  cases hfault.symm.trans hok

end Uboss.Module
