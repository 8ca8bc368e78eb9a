import Uboss.Core.SocketBuffer
import Uboss.Math.Transition
import Mathlib.Algebra.Ring.Nat

/-!
# Flushing the write buffers

What `send_list`, `send_buffer_` and `send_socket` do to the lists of a socket: the links and
the byte count stay right, bytes leave from the front of the two lists, and the assertions of
`send_buffer_` fail in two situations only.
-/

namespace Uboss.Core

open Math List WriteBuffer

variable {ι : Type}

namespace WriteBuffer

variable (wb : WriteBuffer ι) {soi : SocketObjectInterface} {n : ℕ}

theorem rest_eq_append_advance (h : n ≤ wb.sz) :
    wb.rest = span wb.packet.tag wb.ptr n ++ (wb.advance n).rest := by
  change span wb.packet.tag wb.ptr wb.sz = _ ++ span wb.packet.tag (wb.ptr + n) (wb.sz - n)
  rw [← span_add, Nat.add_sub_cancel' h]

/-- What was sent before and what the buffer holds is the packet. -/
theorem take_append_rest_ofPacket (p : Packet ι) (a : Option UdpAddress)
    (h : n ≤ (p.object soi).sz) :
    (p.bytes soi).take n ++ (ofPacket soi p n a).rest = p.bytes soi := by
  have hsplit : p.bytes soi = span p.tag (p.object soi).buffer n ++ (ofPacket soi p n a).rest := by
    change span _ _ _ = _ ++ span p.tag ((p.object soi).buffer + n) ((p.object soi).sz - n)
    rw [← span_add, Nat.add_sub_cancel' h]
  nth_rewrite 1 [hsplit]
  rw [take_left' (length_span ..), ← hsplit]

/-- Nothing of the packet was sent. -/
def Unsent (soi : SocketObjectInterface) (wb : WriteBuffer ι) : Prop :=
  wb.ptr = (wb.packet.object soi).buffer ∧ wb.sz = (wb.packet.object soi).sz

theorem unsent_ofPacket (p : Packet ι) (a : Option UdpAddress) :
    (ofPacket soi p 0 a).Unsent soi := ⟨rfl, rfl⟩

variable {wb}

theorem Unsent.rest_eq (h : wb.Unsent soi) : wb.rest = wb.packet.bytes soi := by
  rw [rest, h.1, h.2, Packet.bytes]

end WriteBuffer

/-- The packet is a user object whose data is not at the address of the object. -/
def Packet.Displaced (soi : SocketObjectInterface) (p : Packet ι) : Prop :=
  p.sz < 0 ∧ soi.buffer p.buffer ≠ p.buffer

theorem Packet.displaced_iff {soi : SocketObjectInterface} {p : Packet ι} :
    p.Displaced soi ↔ (p.object soi).buffer ≠ p.buffer := by
  unfold Displaced object sendObjectInit
  split_ifs with h <;> simp [h]

namespace WbList

/-- `tail` is the last buffer, or null if there is none. -/
def WF (l : WbList ι) : Prop := l.tail = l.chain.getLast?.map (·.packet.tag)

/-- The unsent bytes of a list. -/
def size (l : WbList ι) : ℕ := (l.chain.map (·.sz)).sum

variable {l : WbList ι} {wb : WriteBuffer ι}

theorem WF.eq_empty (h : l.WF) (hnil : l.chain = []) : l = .empty := by
  obtain ⟨chain, tail⟩ := l
  subst hnil
  obtain rfl : tail = none := h
  rfl

theorem wf_empty : (empty : WbList ι).WF := rfl

theorem append_ok [DecidableEq ι] (h : l.WF) :
    l.append wb = .ok ⟨l.chain ++ [wb], some wb.packet.tag⟩ := by
  unfold append
  split_ifs with hnil htail
  · simp [hnil]
  · rfl
  · exact absurd h htail

theorem wf_append (l : WbList ι) (wb : WriteBuffer ι) :
    WF ⟨l.chain ++ [wb], some wb.packet.tag⟩ := by
  simp [WF]

@[simp] theorem chain_insert (l : WbList ι) (wb : WriteBuffer ι) :
    (l.insert wb).chain = wb :: l.chain := by
  unfold insert
  split_ifs with h <;> simp [h]

theorem wf_insert (h : l.WF) (wb : WriteBuffer ι) : (l.insert wb).WF := by
  unfold insert
  split_ifs with hnil
  · rfl
  · change l.tail = ((wb :: l.chain).getLast?).map (·.packet.tag)
    rw [getLast?_cons_of_ne_nil hnil]
    exact h

theorem uncomplete_eq_true_iff :
    l.uncomplete = true ↔ ∃ wb ∈ l.chain.head?, wb.ptr ≠ wb.packet.buffer := by
  unfold uncomplete
  cases l.chain with
  | nil => simp
  | cons wb l => simp

end WbList

section SendList

variable {tail : Option ι} {l : List (WriteBuffer ι)} {wbSize : ℤ} {rs : List WriteResult}
  {protocol : Protocol}

variable {wb : WriteBuffer ι} {rs₂ : List WriteResult}

/-- Writing from the front of a list of write buffers. -/
def Sent (l : List (WriteBuffer ι)) (w : List (ι × ℕ)) (l' : List (WriteBuffer ι)) : Prop :=
  Advance rest packet l w l'

/-- What `send_list` does to the list and to `wb_size`. On TCP the bytes that leave the list are
those that it writes. -/
structure SendListSpec (protocol : Protocol) (l : List (WriteBuffer ι)) (tail : Option ι)
    (wbSize : ℤ) (r : SendList ι) : Prop where
  wf : (l ≠ [] → WbList.WF ⟨l, tail⟩) → r.list.WF
  size : r.wbSize + (WbList.size ⟨l, tail⟩ : ℤ) = wbSize + (r.list.size : ℤ)
  sent : ∃ w, (protocol = .tcp → r.written = w) ∧ Sent l w r.list.chain

theorem SendListSpec.stop (wb : WriteBuffer ι) (l : List (WriteBuffer ι)) (rs' : List WriteResult)
    (failed : Bool) :
    SendListSpec protocol (wb :: l) tail wbSize ⟨⟨wb :: l, tail⟩, wbSize, [], [], rs', failed⟩ :=
  ⟨fun h => h (by simp), rfl, [], fun _ => rfl, Advance.refl _⟩

/-- A buffer that was sent completely, followed by the rest of the list. -/
theorem SendListSpec.pass {r : SendList ι} {written : List (ι × ℕ)}
    (h : SendListSpec protocol l tail (wbSize - wb.sz) r)
    (hwritten : protocol = .tcp → written = wb.rest ++ r.written)
    (datagrams : List (Datagram ι)) :
    SendListSpec protocol (wb :: l) tail wbSize { r with written, datagrams } where
  wf hwf := by
    refine h.wf fun hne => ?_
    have hcons := hwf (by simp)
    rwa [WbList.WF, getLast?_cons_of_ne_nil hne] at hcons
  size := by
    have hsize := h.size
    simp only [WbList.size, map_cons, sum_cons] at hsize ⊢
    omega
  sent := by
    obtain ⟨w, hw, hsent⟩ := h.sent
    exact ⟨_, fun htcp => by rw [hwritten htcp, hw htcp], .pass hsent⟩

theorem sendListTcp_spec (tail : Option ι) (l : List (WriteBuffer ι)) (wbSize : ℤ)
    (rs : List WriteResult) : SendListSpec .tcp l tail wbSize (sendListTcp tail l wbSize rs) := by
  fun_induction sendListTcp tail l wbSize rs with
  | case1 => exact ⟨fun _ => rfl, rfl, [], fun _ => rfl, .nil⟩
  | case2 => exact .stop ..
  | case3 wb l wbSize rs ih => exact ih
  | case4 => exact .stop ..
  | case5 => exact .stop ..
  | case6 wb l wbSize n rs hlt =>
    refine ⟨fun h => ?_, ?_, _, fun _ => rfl,
      .part rfl (wb.rest_eq_append_advance (Nat.le_of_lt hlt))⟩
    · have hwf := h (by simp)
      -- the moved head has the tag of the old one
      cases l with
      | nil => exact hwf
      | cons wb' l => exact hwf
    · simp only [WbList.size, map_cons, sum_cons, advance]
      omega
  | case7 wb l wbSize n rs hlt r ih => exact ih.pass (fun _ => rfl) _

theorem sendListUdp_spec (hp : protocol ≠ .tcp) (tail : Option ι) (l : List (WriteBuffer ι))
    (wbSize : ℤ) (rs : List WriteResult) :
    SendListSpec protocol l tail wbSize (sendListUdp protocol tail l wbSize rs) := by
  fun_induction sendListUdp protocol tail l wbSize rs with
  | case1 => exact ⟨fun _ => rfl, rfl, [], fun _ => rfl, .nil⟩
  | case2 wb l wbSize n rs r ih => exact ih.pass (fun htcp => absurd htcp hp) _
  | case3 => exact .stop ..

theorem sendList_spec (protocol : Protocol) (l : WbList ι) (wbSize : ℤ) (rs : List WriteResult) :
    SendListSpec protocol l.chain l.tail wbSize (sendList protocol l wbSize rs) := by
  unfold sendList
  split_ifs with hp
  · subst hp
    exact sendListTcp_spec ..
  · exact sendListUdp_spec hp ..

theorem sendListUdp_failed (protocol : Protocol) (tail : Option ι) (l : List (WriteBuffer ι))
    (wbSize : ℤ) (rs : List WriteResult) :
    (sendListUdp protocol tail l wbSize rs).failed = false := by
  fun_induction sendListUdp protocol tail l wbSize rs with
  | case1 => rfl
  | case2 wb l wbSize n rs r ih => exact ih
  | case3 => rfl

/-! ## Where a flush stops -/

/-- The results that decide something: on TCP an interrupted write is repeated. -/
def effective (protocol : Protocol) (rs : List WriteResult) : List WriteResult :=
  if protocol = .tcp then rs.filter (· ≠ .eintr) else rs

/-- The result sends the whole buffer. -/
def Passes (protocol : Protocol) (wb : WriteBuffer ι) (r : WriteResult) : Prop :=
  ∃ n, r = .wrote n ∧ (protocol = .tcp → wb.sz ≤ n)

/-- The result (none if there is no further one) stops the flush in this buffer, and where it
goes on is the address of the packet. -/
def StopsAtBuffer (protocol : Protocol) (wb : WriteBuffer ι) : Option WriteResult → Prop
  | some (.wrote n) => protocol = .tcp ∧ n < wb.sz ∧ wb.ptr + n = wb.packet.buffer
  | some .error => protocol ≠ .tcp ∧ wb.ptr = wb.packet.buffer
  | _ => wb.ptr = wb.packet.buffer

/-- The results stop the flush of the list in a buffer whose pointer then is the address of
its packet, as if nothing of it had been sent. -/
def StopsAtPacket (protocol : Protocol) (l : List (WriteBuffer ι)) (rs : List WriteResult) :
    Prop :=
  ∃ before wb behind rs₁ rs₂, l = before ++ wb :: behind ∧ rs = rs₁ ++ rs₂ ∧
    List.Forall₂ (Passes protocol) before rs₁ ∧ StopsAtBuffer protocol wb rs₂.head?

theorem not_stopsAtPacket_nil : ¬ StopsAtPacket protocol ([] : List (WriteBuffer ι)) rs := by
  rintro ⟨before, wb, behind, rs₁, rs₂, h, -⟩
  simp at h

theorem stopsAtPacket_cons_nil :
    StopsAtPacket protocol (wb :: l) [] ↔ wb.ptr = wb.packet.buffer := by
  constructor
  · rintro ⟨before, wb', behind, rs₁, rs₂, hl, hrs, hpass, hstop⟩
    obtain ⟨rfl, rfl⟩ := append_eq_nil_iff.mp hrs.symm
    obtain rfl := List.forall₂_nil_right_iff.mp hpass
    obtain ⟨rfl, -⟩ := cons_eq_cons.mp hl
    exact hstop
  · intro h
    exact ⟨[], wb, l, [], [], rfl, rfl, .nil, h⟩

theorem stopsAtPacket_cons_cons {r : WriteResult} : StopsAtPacket protocol (wb :: l) (r :: rs) ↔
      StopsAtBuffer protocol wb (some r) ∨ Passes protocol wb r ∧ StopsAtPacket protocol l rs := by
  constructor
  · rintro ⟨before, wb', behind, rs₁, rs₂, hl, hrs, hpass, hstop⟩
    cases hpass with
    | nil =>
      obtain ⟨rfl, -⟩ := cons_eq_cons.mp hl
      rw [nil_append] at hrs
      rw [← hrs] at hstop
      exact .inl hstop
    | cons hhead htail =>
      obtain ⟨rfl, rfl⟩ := cons_eq_cons.mp hl
      obtain ⟨rfl, rfl⟩ := cons_eq_cons.mp hrs
      exact .inr ⟨hhead, _, wb', behind, _, rs₂, rfl, rfl, htail, hstop⟩
  · rintro (hstop | ⟨hhead, before, wb', behind, rs₁, rs₂, rfl, rfl, hpass, hstop⟩)
    · exact ⟨[], wb, l, [], r :: rs, rfl, rfl, .nil, hstop⟩
    · exact ⟨wb :: before, wb', behind, r :: rs₁, rs₂, rfl, rfl, .cons hhead hpass, hstop⟩

/-- `send_list` leaves a list whose head does not look half sent. -/
def SendList.StopsComplete (r : SendList ι) : Prop :=
  r.failed = false ∧ r.list.chain ≠ [] ∧ r.list.uncomplete = false

theorem sendListTcp_stopsComplete_iff : (sendListTcp tail l wbSize rs).StopsComplete ↔
      StopsAtPacket .tcp l (effective .tcp rs) := by
  fun_induction sendListTcp tail l wbSize rs with
  | case1 => simp [SendList.StopsComplete, not_stopsAtPacket_nil]
  | case2 => simp [SendList.StopsComplete, effective, stopsAtPacket_cons_nil, WbList.uncomplete]
  | case3 wb l wbSize rs ih => simpa [effective] using ih
  | case4 wb l wbSize rs =>
    simp [SendList.StopsComplete, effective, stopsAtPacket_cons_cons, WbList.uncomplete,
      StopsAtBuffer, Passes]
  | case5 wb l wbSize rs =>
    simp [SendList.StopsComplete, effective, stopsAtPacket_cons_cons, StopsAtBuffer, Passes]
  | case6 wb l wbSize n rs hlt =>
    simp [SendList.StopsComplete, effective, stopsAtPacket_cons_cons, WbList.uncomplete,
      StopsAtBuffer, Passes, hlt, advance, Nat.not_le.mpr hlt]
  | case7 wb l wbSize n rs hlt r ih =>
    have hle : wb.sz ≤ n := Nat.not_lt.mp hlt
    simpa [SendList.StopsComplete, effective, stopsAtPacket_cons_cons, StopsAtBuffer, Passes,
      hlt, hle] using ih

theorem sendListUdp_stopsComplete_iff (hp : protocol ≠ .tcp) :
    (sendListUdp protocol tail l wbSize rs).StopsComplete ↔
      StopsAtPacket protocol l (effective protocol rs) := by
  fun_induction sendListUdp protocol tail l wbSize rs with
  | case1 => simp [SendList.StopsComplete, not_stopsAtPacket_nil]
  | case2 wb l wbSize n rs r ih =>
    simpa [SendList.StopsComplete, effective, stopsAtPacket_cons_cons, StopsAtBuffer, Passes,
      hp] using ih
  | case3 wb l wbSize rs hne =>
    cases rs with
    | nil =>
      simp [SendList.StopsComplete, effective, hp, stopsAtPacket_cons_nil, WbList.uncomplete]
    | cons r rs =>
      cases r with
      | wrote n => exact absurd rfl (hne n rs)
      | eintr | again | error =>
        simp [SendList.StopsComplete, effective, hp, stopsAtPacket_cons_cons, StopsAtBuffer,
          Passes, WbList.uncomplete]

theorem sendList_stopsComplete_iff {l : WbList ι} : (sendList protocol l wbSize rs).StopsComplete ↔
      StopsAtPacket protocol l.chain (effective protocol rs) := by
  unfold sendList
  split_ifs with hp
  · subst hp
    exact sendListTcp_stopsComplete_iff
  · exact sendListUdp_stopsComplete_iff hp

/-- `send_list` empties the list and goes on with these results. -/
def SendList.Empties (r : SendList ι) (protocol : Protocol) (rs₂ : List WriteResult) : Prop :=
  r.failed = false ∧ r.list.chain = [] ∧ effective protocol r.results = rs₂

/-- The results send the whole list and leave `rs₂`. -/
def PassesAll (protocol : Protocol) (l : List (WriteBuffer ι)) (rs rs₂ : List WriteResult) :
    Prop :=
  ∃ rs₁, rs = rs₁ ++ rs₂ ∧ List.Forall₂ (Passes protocol) l rs₁

theorem passesAll_nil : PassesAll protocol ([] : List (WriteBuffer ι)) rs rs₂ ↔ rs = rs₂ := by
  simp [PassesAll]

theorem not_passesAll_cons_nil : ¬ PassesAll protocol (wb :: l) [] rs₂ := by
  rintro ⟨rs₁, hrs, hpass⟩
  obtain ⟨rfl, -⟩ := append_eq_nil_iff.mp hrs.symm
  cases hpass

theorem passesAll_cons_cons {r : WriteResult} : PassesAll protocol (wb :: l) (r :: rs) rs₂ ↔
      Passes protocol wb r ∧ PassesAll protocol l rs rs₂ := by
  constructor
  · rintro ⟨rs₁, hrs, hpass⟩
    cases hpass with
    | cons hhead htail =>
      obtain ⟨rfl, rfl⟩ := cons_eq_cons.mp hrs
      exact ⟨hhead, _, rfl, htail⟩
  · rintro ⟨hhead, rs₁, rfl, hpass⟩
    exact ⟨r :: rs₁, rfl, .cons hhead hpass⟩

theorem sendListTcp_empties_iff : (sendListTcp tail l wbSize rs).Empties .tcp rs₂ ↔
      PassesAll .tcp l (effective .tcp rs) rs₂ := by
  fun_induction sendListTcp tail l wbSize rs with
  | case1 => simp [SendList.Empties, passesAll_nil]
  | case2 => simp [SendList.Empties, effective, not_passesAll_cons_nil]
  | case3 wb l wbSize rs ih => simpa [effective] using ih
  | case4 | case5 => simp [SendList.Empties, effective, passesAll_cons_cons, Passes]
  | case6 wb l wbSize n rs hlt =>
    simp [SendList.Empties, effective, passesAll_cons_cons, Passes, Nat.not_le.mpr hlt]
  | case7 wb l wbSize n rs hlt r ih =>
    have hle : wb.sz ≤ n := Nat.not_lt.mp hlt
    simpa [SendList.Empties, effective, passesAll_cons_cons, Passes, hle] using ih

theorem sendListUdp_empties_iff (hp : protocol ≠ .tcp) :
    (sendListUdp protocol tail l wbSize rs).Empties protocol rs₂ ↔
      PassesAll protocol l (effective protocol rs) rs₂ := by
  fun_induction sendListUdp protocol tail l wbSize rs with
  | case1 => simp [SendList.Empties, passesAll_nil]
  | case2 wb l wbSize n rs r ih =>
    simpa [SendList.Empties, effective, passesAll_cons_cons, Passes, hp] using ih
  | case3 wb l wbSize rs hne =>
    cases rs with
    | nil => simp [SendList.Empties, effective, hp, not_passesAll_cons_nil]
    | cons r rs =>
      cases r with
      | wrote n => exact absurd rfl (hne n rs)
      | eintr | again | error =>
        simp [SendList.Empties, effective, hp, passesAll_cons_cons, Passes]

theorem sendList_empties_iff {l : WbList ι} : (sendList protocol l wbSize rs).Empties protocol rs₂ ↔
      PassesAll protocol l.chain (effective protocol rs) rs₂ := by
  unfold sendList
  split_ifs with hp
  · subst hp
    exact sendListTcp_empties_iff
  · exact sendListUdp_empties_iff hp

end SendList

namespace Socket

variable {soi : SocketObjectInterface} {s s' : Socket ι} {rs : List WriteResult} {f : Flush ι}

variable {written : List (ι × ℕ)} {datagrams : List (Datagram ι)} {w : List (ι × ℕ)}
  {e : SocketFault}

/-- The unsent bytes in both lists. -/
def queued (s : Socket ι) : List (WriteBuffer ι) := s.high.chain ++ s.low.chain

/-- `wb_size` counts the unsent bytes of the two lists. -/
def Counted (s : Socket ι) : Prop := s.wbSize = s.high.size + s.low.size

/-- The lists are well formed, and nothing in the low list was sent. -/
structure Inv (soi : SocketObjectInterface) (s : Socket ι) : Prop where
  high_wf : s.high.WF
  low_wf : s.low.WF
  low_unsent : ∀ wb ∈ s.low.chain, wb.Unsent soi

theorem sendBufferEmpty_iff : s.sendBufferEmpty = true ↔ s.high.chain = [] ∧ s.low.chain = [] := by
  simp [sendBufferEmpty]

/-- The type is that of an open socket. -/
def IsOpen (s : Socket ι) : Prop := s.type ≠ .invalid ∧ s.type ≠ .reserve

theorem forceClose_of_isOpen (h : s.IsOpen) : s.forceClose = .ok s.freeWbLists.closeFd := by
  unfold forceClose
  split
  · exact absurd ‹_› h.1
  · exact absurd ‹_› h.2
  · rfl

/-- What both outcomes of a flush share: bytes leave from the front of the two lists. -/
def SentFrom (s : Socket ι) (f : Flush ι) (l' : List (WriteBuffer ι)) : Prop :=
  ∃ w, (s.protocol = .tcp → f.written = w) ∧ Sent s.queued w l'

/-- A flush that leaves the socket open. -/
structure Flushed (s : Socket ι) (f : Flush ι) : Prop where
  result : f.result ≠ .close
  failed : f.failed = false
  type : f.socket.type = s.type
  protocol : f.socket.protocol = s.protocol
  dw : f.socket.dw = s.dw
  udpconnecting : f.socket.udpconnecting = s.udpconnecting
  high_wf : f.socket.high.WF
  low_wf : f.socket.low.WF
  counted : f.socket.Counted
  sent : s.SentFrom f f.socket.queued
  low_suffix : f.socket.low.chain <:+ s.low.chain
  low_of_high : f.socket.high.chain = [] → f.socket.low.chain = []
  wantWrite : f.socket.queued = [] ∨ f.socket.wantWrite = s.wantWrite

/-- A flush that closes the socket, after an error or because everything was sent. -/
structure FlushClosed (s : Socket ι) (f : Flush ι) : Prop where
  result : f.result = .close
  socket : f.socket.type = .invalid ∧ f.socket.high = .empty ∧ f.socket.low = .empty ∧
    f.socket.dw = none
  protocol : f.socket.protocol = s.protocol
  sent : ∃ l', s.SentFrom f l' ∧ (f.failed = true ∨ l' = [] ∧ s.type = .halfclose)

theorem sendBufferDone_cases (hopen : s.IsOpen) {r : Socket ι × SocketResult}
    (h : s.sendBufferDone = .ok r) :
    s.queued = [] ∧ s.wbSize = 0 ∧ ((r.2 = .close ∧ s.type = .halfclose ∧
          r.1 = closeFd (freeWbLists { s with wantWrite := false })) ∨
        (r.2 ≠ .close ∧
          ∃ warnSize, r.1 = { s with wantWrite := false, warnSize := warnSize })) := by
  unfold sendBufferDone at h
  split_ifs at h with hempty hhalf hwarn
  · obtain ⟨hlists, hsize⟩ := hempty
    have hopen' : IsOpen { s with wantWrite := false } := hopen
    rw [forceClose_of_isOpen hopen'] at h
    cases h
    refine ⟨?_, hsize, .inl ⟨rfl, hhalf, rfl⟩⟩
    simp [queued, sendBufferEmpty_iff.mp hlists]
  · cases h
    exact ⟨by simp [queued, sendBufferEmpty_iff.mp hempty.1], hempty.2, .inr ⟨by simp, 0, rfl⟩⟩
  · cases h
    exact ⟨by simp [queued, sendBufferEmpty_iff.mp hempty.1], hempty.2,
      .inr ⟨by simp, s.warnSize, rfl⟩⟩

/-- `s` and `s'` differ in the lists and the byte count only. -/
structure SameFlags (s s' : Socket ι) : Prop where
  type : s'.type = s.type
  protocol : s'.protocol = s.protocol
  dw : s'.dw = s.dw
  udpconnecting : s'.udpconnecting = s.udpconnecting

theorem SameFlags.refl (s : Socket ι) : SameFlags s s := ⟨rfl, rfl, rfl, rfl⟩

theorem sameFlags_putHigh (s : Socket ι) (r : SendList ι) : SameFlags s (s.putHigh r) :=
  ⟨rfl, rfl, rfl, rfl⟩

theorem sameFlags_putLow (s : Socket ι) (r : SendList ι) : SameFlags s (s.putLow r) :=
  ⟨rfl, rfl, rfl, rfl⟩

theorem SameFlags.isOpen (h : SameFlags s s') (hopen : s.IsOpen) : s'.IsOpen := by
  unfold IsOpen
  rwa [h.type]

theorem flush_of_done (hopen : s.IsOpen) (hsame : SameFlags s s')
    (hw : s.protocol = .tcp → written = w) (hsent : Sent s.queued w s'.queued)
    (hwf : s'.high.WF ∧ s'.low.WF) {r : Socket ι × SocketResult} (h : s'.sendBufferDone = .ok r) :
    Flushed s ⟨r.1, written, datagrams, r.2, false⟩ ∨
      FlushClosed s ⟨r.1, written, datagrams, r.2, false⟩ := by
  obtain ⟨hnil, hsize, ⟨hres, htype, hr⟩ | ⟨hres, warnSize, hr⟩⟩ :=
    sendBufferDone_cases (hsame.isOpen hopen) h
  · refine .inr ⟨hres, ?_, ?_, [], ⟨w, hw, hnil ▸ hsent⟩, .inr ⟨rfl, hsame.type ▸ htype⟩⟩
    · rw [hr]
      exact ⟨rfl, rfl, rfl, rfl⟩
    · rw [hr]
      exact hsame.protocol
  · obtain ⟨hhigh, hlow⟩ := append_eq_nil_iff.mp hnil
    refine .inl ⟨hres, rfl, ?_, ?_, ?_, ?_, ?_, ?_, ?_, ⟨w, hw, ?_⟩, ?_, ?_, .inl ?_⟩ <;>
      simp only [hr]
    · exact hsame.type
    · exact hsame.protocol
    · exact hsame.dw
    · exact hsame.udpconnecting
    · exact hwf.1
    · exact hwf.2
    · simp [Counted, WbList.size, hhigh, hlow, hsize]
    · exact hsent
    · simp [hlow]
    · exact fun _ => hlow
    · exact hnil

theorem flush_of_failed (hopen : s.IsOpen) (hsame : SameFlags s s') {l' : List (WriteBuffer ι)}
    (hw : s.protocol = .tcp → written = w) (hsent : Sent s.queued w l') {s'' : Socket ι}
    (h : s'.forceClose = .ok s'') :
    FlushClosed s ⟨s'', written, datagrams, .close, true⟩ := by
  rw [forceClose_of_isOpen (hsame.isOpen hopen)] at h
  cases h
  exact ⟨rfl, ⟨rfl, rfl, rfl, rfl⟩, hsame.protocol, l', ⟨w, hw, hsent⟩, .inl rfl⟩

/-- Step 3: the half sent head of the low list becomes the high list. -/
theorem raiseUncomplete_eq (hhigh : s.high.chain = []) {wb : WriteBuffer ι}
    {l : List (WriteBuffer ι)} (hlow : s.low.chain = wb :: l) :
    s.raiseUncomplete = .ok { s with
      low := ⟨l, if l = [] then none else s.low.tail⟩
      high := ⟨[wb], some wb.packet.tag⟩ } := by
  simp [raiseUncomplete, hlow, hhigh]

theorem flush_of_raise (hhigh : s.high = .empty) (hlow : s.low.WF) (hcount : s.Counted)
    {r : SendList ι} (hspec : SendListSpec s.protocol s.low.chain s.low.tail s.wbSize r)
    {wb : WriteBuffer ι} {l : List (WriteBuffer ι)} (hl : r.list.chain = wb :: l)
    (hw : s.protocol = .tcp → r.written = w) (hsent : Sent s.queued w r.list.chain)
    (hsuffix : l <:+ s.low.chain) :
    Flushed s ⟨{ s.putLow r with
      low := ⟨l, if l = [] then none else r.list.tail⟩
      high := ⟨[wb], some wb.packet.tag⟩ }, r.written, r.datagrams, .ignore, false⟩ where
  result := by simp
  failed := rfl
  type := rfl
  protocol := rfl
  dw := rfl
  udpconnecting := rfl
  high_wf := rfl
  low_wf := by
    have hwf := hspec.wf fun _ => hlow
    rw [WbList.WF, hl] at hwf
    by_cases hnil : l = []
    · simp [WbList.WF, hnil]
    · rw [getLast?_cons_of_ne_nil hnil] at hwf
      simpa [WbList.WF, hnil] using hwf
  counted := by
    have hsize := hspec.size
    simp only [Counted, WbList.size, hhigh, WbList.empty, map_nil, sum_nil] at hcount
    simp only [WbList.size, hl, map_cons, sum_cons] at hsize
    simp only [Counted, WbList.size, putLow, map_cons, map_nil, sum_cons, sum_nil]
    omega
  sent := by
    refine ⟨w, hw, ?_⟩
    rw [hl] at hsent
    exact hsent
  low_suffix := hsuffix
  low_of_high h := by simp at h
  wantWrite := .inr rfl

theorem lowSent_cases (hopen : s.IsOpen) (hhigh : s.high = .empty) (hlow : s.low.WF)
    (hcount : s.Counted) {r : SendList ι}
    (hspec : SendListSpec s.protocol s.low.chain s.low.tail s.wbSize r)
    (h : s.lowSent r = .ok f) : Flushed s f ∨ FlushClosed s f := by
  obtain ⟨w, hw, hsent⟩ := hspec.sent
  have hchain : s.high.chain = [] := by rw [hhigh]; rfl
  have hqueued : s.queued = s.low.chain := by rw [queued, hchain, nil_append]
  have hqueued' : (s.putLow r).queued = r.list.chain := by
    change s.high.chain ++ r.list.chain = _
    rw [hchain, nil_append]
  rw [← hqueued] at hsent
  unfold lowSent at h
  split_ifs at h with hfailed hunc
  · obtain ⟨s', hs', rfl⟩ := map_eq_ok_iff.mp h
    exact .inr (flush_of_failed hopen (sameFlags_putLow s r) hw hsent hs')
  · obtain ⟨wb, hwb, -⟩ := WbList.uncomplete_eq_true_iff.mp hunc
    obtain ⟨l, hl⟩ := head?_eq_some_iff.mp hwb
    have hraise := raiseUncomplete_eq (s := s.putLow r) hchain hl
    rw [hraise] at h
    cases h
    refine .inl (flush_of_raise hhigh hlow hcount hspec hl hw hsent ?_)
    rw [hl, hqueued] at hsent
    exact hsent.tail_suffix
  · obtain ⟨x, hx, rfl⟩ := map_eq_ok_iff.mp h
    have hwf : (s.putLow r).high.WF ∧ (s.putLow r).low.WF :=
      ⟨show s.high.WF by rw [hhigh]; exact WbList.wf_empty, hspec.wf fun _ => hlow⟩
    exact flush_of_done hopen (sameFlags_putLow s r) hw (hqueued' ▸ hsent) hwf hx

theorem sendBufferLow_cases (hopen : s.IsOpen) (hhigh : s.high = .empty) (hlow : s.low.WF)
    (hcount : s.Counted) (h : s.sendBufferLow rs = .ok f) : Flushed s f ∨ FlushClosed s f := by
  unfold sendBufferLow at h
  split_ifs at h with hnil
  · obtain ⟨x, hx, rfl⟩ := map_eq_ok_iff.mp h
    have hwf : s.high.WF := by rw [hhigh]; exact WbList.wf_empty
    exact flush_of_done hopen (.refl s) (fun _ => rfl) (Advance.refl _) ⟨hwf, hlow⟩ hx
  · exact lowSent_cases hopen hhigh hlow hcount (sendList_spec ..) h

theorem counted_putHigh {r : SendList ι} (hcount : s.Counted)
    (hspec : SendListSpec s.protocol s.high.chain s.high.tail s.wbSize r) :
    (s.putHigh r).Counted := by
  have hsize := hspec.size
  change s.wbSize = s.high.size + s.low.size at hcount
  change r.wbSize = r.list.size + s.low.size
  change r.wbSize + s.high.size = _ at hsize
  omega

theorem counted_putLow {r : SendList ι} (hcount : s.Counted)
    (hspec : SendListSpec s.protocol s.low.chain s.low.tail s.wbSize r) : (s.putLow r).Counted := by
  have hsize := hspec.size
  change s.wbSize = s.high.size + s.low.size at hcount
  change r.wbSize = s.high.size + r.list.size
  change r.wbSize + s.low.size = _ at hsize
  omega

/-- The low list is flushed after the high list was sent completely. -/
theorem Flushed.after_high {r : SendList ι} (h : Flushed (s.putHigh r) f)
    (hw : s.protocol = .tcp → r.written = w) (hsent : Sent s.high.chain w [])
    (hnil : r.list.chain = []) :
    Flushed s
      { f with written := r.written ++ f.written, datagrams := r.datagrams ++ f.datagrams } := by
  obtain ⟨w', hw', hsent'⟩ := h.sent
  refine ⟨h.result, h.failed, h.type, h.protocol, h.dw, h.udpconnecting, h.high_wf, h.low_wf,
    h.counted, ⟨w ++ w', fun htcp => by rw [hw htcp, hw' htcp], ?_⟩, h.low_suffix, h.low_of_high,
    h.wantWrite⟩
  rw [queued, putHigh, hnil] at hsent'
  exact hsent.append_nil hsent'

theorem FlushClosed.after_high {r : SendList ι} (h : FlushClosed (s.putHigh r) f)
    (hw : s.protocol = .tcp → r.written = w) (hsent : Sent s.high.chain w [])
    (hnil : r.list.chain = []) :
    FlushClosed s
      { f with written := r.written ++ f.written, datagrams := r.datagrams ++ f.datagrams } := by
  obtain ⟨l', ⟨w', hw', hsent'⟩, hend⟩ := h.sent
  refine ⟨h.result, h.socket, h.protocol, l',
    ⟨w ++ w', fun htcp => by rw [hw htcp, hw' htcp], ?_⟩, hend⟩
  rw [queued, putHigh, hnil] at hsent'
  exact hsent.append_nil hsent'

theorem flush_cases (hopen : s.IsOpen) (hs : s.Inv soi) (hcount : s.Counted)
    (h : s.sendBuffer_ rs = .ok f) : Flushed s f ∨ FlushClosed s f := by
  unfold sendBuffer_ at h
  split_ifs at h with hunc
  have hspec := sendList_spec s.protocol s.high s.wbSize rs
  generalize sendList s.protocol s.high s.wbSize rs = r at h hspec
  obtain ⟨w, hw, hsent⟩ := hspec.sent
  have hwf := hspec.wf fun _ => hs.high_wf
  have hcount' := counted_putHigh hcount hspec
  unfold highSent at h
  split_ifs at h with hfailed hnil
  · obtain ⟨s', hs', rfl⟩ := map_eq_ok_iff.mp h
    exact .inr (flush_of_failed hopen (sameFlags_putHigh s r) hw
      (hsent.append_right s.low.chain) hs')
  · obtain ⟨f', hf', rfl⟩ := map_eq_ok_iff.mp h
    rw [hnil] at hsent
    rcases sendBufferLow_cases (s := s.putHigh r) hopen (hwf.eq_empty hnil) hs.low_wf hcount' hf'
      with hflushed | hclosed
    · exact .inl (hflushed.after_high hw hsent hnil)
    · exact .inr (hclosed.after_high hw hsent hnil)
  · cases h
    exact .inl ⟨by simp, rfl, rfl, rfl, rfl, rfl, hwf, hs.low_wf, hcount',
      ⟨w, hw, hsent.append_right s.low.chain⟩, suffix_rfl, fun hnil' => absurd hnil' hnil,
      .inr rfl⟩

/-! ## The type after a flush -/

/-- What a flush does to the type and to empty lists, whatever the lists are. -/
structure FlushTyped (s : Socket ι) (f : Flush ι) : Prop where
  closed : f.result = .close → s.IsOpen ∧ f.socket.type = .invalid ∧
    f.socket.high = .empty ∧ f.socket.low = .empty
  kept : f.result ≠ .close → f.socket.type = s.type ∧ f.socket.dw = s.dw ∧
    (s.queued = [] → f.socket.queued = [])

section

variable {x : Socket ι × SocketResult} (h : s.sendBufferDone = .ok x)
include h

theorem queued_of_sendBufferDone : s.queued = [] ∧ x.1.queued = [] := by
  unfold sendBufferDone at h
  split_ifs at h with hempty hhalf hwarn
  all_goals
    have hnil : s.queued = [] := append_eq_nil_iff.mpr (sendBufferEmpty_iff.mp hempty.1)
  · obtain ⟨y, hy, rfl⟩ := map_eq_ok_iff.mp h
    rw [forceClose_of_isOpen (by simp [IsOpen, hhalf])] at hy
    cases hy
    exact ⟨hnil, rfl⟩
  · cases h
    exact ⟨hnil, hnil⟩
  · cases h
    exact ⟨hnil, hnil⟩

theorem flushTyped_of_done : FlushTyped s ⟨x.1, written, datagrams, x.2, false⟩ := by
  have hqueued := (queued_of_sendBufferDone h).2
  unfold sendBufferDone at h
  split_ifs at h with hempty hhalf hwarn
  · have hopen : s.IsOpen := by simp [IsOpen, hhalf]
    obtain ⟨y, hy, rfl⟩ := map_eq_ok_iff.mp h
    rw [forceClose_of_isOpen (by simp [IsOpen, hhalf])] at hy
    cases hy
    exact ⟨fun _ => ⟨hopen, rfl, rfl, rfl⟩, fun hne => absurd rfl hne⟩
  · cases h
    exact ⟨fun hclose => (by cases hclose), fun _ => ⟨rfl, rfl, fun _ => hqueued⟩⟩
  · cases h
    exact ⟨fun hclose => (by cases hclose), fun _ => ⟨rfl, rfl, fun _ => hqueued⟩⟩

end

section

variable (hne : s.type ≠ .invalid)
include hne

theorem flushTyped_of_failed (hsame : SameFlags s s') {s'' : Socket ι}
    (h : s'.forceClose = .ok s'') : FlushTyped s ⟨s'', written, datagrams, .close, true⟩ := by
  have hopen : s.IsOpen := by
    refine ⟨hne, fun hreserve => ?_⟩
    rw [forceClose, hsame.type, hreserve] at h
    cases h
  rw [forceClose_of_isOpen (hsame.isOpen hopen)] at h
  cases h
  exact ⟨fun _ => ⟨hopen, rfl, rfl, rfl⟩, fun hne => absurd rfl hne⟩

theorem sendBufferLow_typed (hhigh : s.high.chain = []) (h : s.sendBufferLow rs = .ok f) :
    FlushTyped s f := by
  unfold sendBufferLow at h
  split_ifs at h with hnil
  · obtain ⟨x, hx, rfl⟩ := map_eq_ok_iff.mp h
    exact flushTyped_of_done hx
  · have hqueued : s.queued ≠ [] := fun h => hnil (append_eq_nil_iff.mp h).2
    unfold lowSent at h
    generalize sendList s.protocol s.low s.wbSize rs = r at h
    split_ifs at h with hfailed hunc
    · obtain ⟨y, hy, rfl⟩ := map_eq_ok_iff.mp h
      exact flushTyped_of_failed hne (sameFlags_putLow s r) hy
    · obtain ⟨wb, hwb, -⟩ := WbList.uncomplete_eq_true_iff.mp hunc
      obtain ⟨l, hl⟩ := head?_eq_some_iff.mp hwb
      rw [raiseUncomplete_eq (s := s.putLow r) hhigh hl] at h
      cases h
      exact ⟨fun hclose => (by cases hclose), fun _ => ⟨rfl, rfl, fun h => absurd h hqueued⟩⟩
    · obtain ⟨x, hx, rfl⟩ := map_eq_ok_iff.mp h
      have htyped : FlushTyped (s.putLow r) ⟨x.1, r.written, r.datagrams, x.2, false⟩ :=
        flushTyped_of_done hx
      refine ⟨htyped.closed, fun hkept => ?_⟩
      obtain ⟨htype, hdw, -⟩ := htyped.kept hkept
      exact ⟨htype, hdw, fun h => absurd h hqueued⟩

theorem flushTyped_sendBuffer (h : s.sendBuffer_ rs = .ok f) : FlushTyped s f := by
  unfold sendBuffer_ at h
  split_ifs at h with hunc
  have hspec := sendList_spec s.protocol s.high s.wbSize rs
  generalize sendList s.protocol s.high s.wbSize rs = r at h hspec
  unfold highSent at h
  split_ifs at h with hfailed hnil
  · obtain ⟨y, hy, rfl⟩ := map_eq_ok_iff.mp h
    exact flushTyped_of_failed hne (sameFlags_putHigh s r) hy
  · obtain ⟨g, hg, rfl⟩ := map_eq_ok_iff.mp h
    have htyped := sendBufferLow_typed (s := s.putHigh r) hne hnil hg
    refine ⟨htyped.closed, fun hkept => ?_⟩
    obtain ⟨htype, hdw, hqueued⟩ := htyped.kept hkept
    refine ⟨htype, hdw, fun h => hqueued ?_⟩
    change r.list.chain ++ s.low.chain = []
    rw [hnil, (append_eq_nil_iff.mp h).2]
    rfl
  · cases h
    refine ⟨fun hclose => (by cases hclose), fun _ => ⟨rfl, rfl, fun h => ?_⟩⟩
    -- nothing is left of an empty list
    obtain ⟨w, -, hsent⟩ := hspec.sent
    rw [(append_eq_nil_iff.mp h).1] at hsent
    generalize r.list.chain = l at hsent hnil
    cases hsent
    exact absurd rfl hnil

theorem sendBuffer_typed (h : s.sendBuffer soi rs = .ok f) :
    (f.result = .close → s.IsOpen ∧ f.socket.type = .invalid ∧
        f.socket.high = .empty ∧ f.socket.low = .empty) ∧
      (f.result ≠ .close → f.socket.type = s.type ∧
        (s.queued = [] → s.dw = none → f.socket.queued = [] ∧ f.socket.dw = none)) := by
  have htype : (s.mergeDw soi).type = s.type := by
    unfold mergeDw
    split <;> rfl
  have htyped := flushTyped_sendBuffer (s := s.mergeDw soi) (htype ▸ hne) h
  refine ⟨fun hclose => ?_, fun hkept => ?_⟩
  · obtain ⟨hopen, hinvalid⟩ := htyped.closed hclose
    exact ⟨⟨htype ▸ hopen.1, htype ▸ hopen.2⟩, hinvalid⟩
  · obtain ⟨heq, hdw, hqueued⟩ := htyped.kept hkept
    refine ⟨heq.trans htype, fun hnil hnone => ?_⟩
    have hmerge : s.mergeDw soi = s := by rw [mergeDw, hnone]
    rw [hmerge] at hqueued hdw
    exact ⟨hqueued hnil, hdw.trans hnone⟩

/-! ## When the assertions fail -/

end

theorem low_uncomplete_iff (hs : s.Inv soi) :
    s.low.uncomplete = true ↔ ∃ wb ∈ s.low.chain.head?, wb.packet.Displaced soi := by
  rw [WbList.uncomplete_eq_true_iff]
  refine exists_congr fun wb => and_congr_right fun hwb => ?_
  rw [(hs.low_unsent wb (mem_of_mem_head? hwb)).1, Packet.displaced_iff]

section

variable (hopen : s.IsOpen)
include hopen

theorem exists_sendBufferDone (hcount : s.Counted) (hnil : s.queued = []) :
    ∃ r, s.sendBufferDone = .ok r := by
  obtain ⟨hhigh, hlow⟩ := append_eq_nil_iff.mp hnil
  have hsize : s.wbSize = 0 := by simpa [Counted, WbList.size, hhigh, hlow] using hcount
  have hopen' : IsOpen { s with wantWrite := false } := hopen
  unfold sendBufferDone
  rw [if_pos ⟨sendBufferEmpty_iff.mpr ⟨hhigh, hlow⟩, hsize⟩, forceClose_of_isOpen hopen']
  split_ifs <;> exact ⟨_, rfl⟩

/-- Step 4 fails its assertion if and only if something is left in the lists. -/
theorem sendBufferDone_error_iff (hcount : s.Counted) :
    s.sendBufferDone = .error e ↔ e = .notEmpty ∧ s.queued ≠ [] := by
  by_cases hnil : s.queued = []
  · obtain ⟨r, hr⟩ := exists_sendBufferDone hopen hcount hnil
    simp [hr, hnil]
  · have hempty : ¬ (s.sendBufferEmpty = true ∧ s.wbSize = 0) := fun h =>
      hnil (append_eq_nil_iff.mpr (sendBufferEmpty_iff.mp h.1))
    rw [sendBufferDone, if_neg hempty, Except.error.injEq]
    exact ⟨fun h => ⟨h.symm, hnil⟩, fun h => h.1.symm⟩

theorem lowSent_error_iff (hhigh : s.high.chain = []) {r : SendList ι}
    (hcount : (s.putLow r).Counted) : s.lowSent r = .error e ↔ e = .notEmpty ∧ r.StopsComplete := by
  have hopen' : (s.putLow r).IsOpen := hopen
  have hqueued : (s.putLow r).queued = r.list.chain := by
    change s.high.chain ++ r.list.chain = _
    rw [hhigh, nil_append]
  unfold lowSent
  split_ifs with hfailed hunc
  · simp [forceClose_of_isOpen hopen', Except.map, SendList.StopsComplete, hfailed]
  · obtain ⟨wb, hwb, -⟩ := WbList.uncomplete_eq_true_iff.mp hunc
    obtain ⟨l, hl⟩ := head?_eq_some_iff.mp hwb
    have hraise := raiseUncomplete_eq (s := s.putLow r) hhigh hl
    simp [hraise, Except.map, SendList.StopsComplete, hunc]
  · rw [map_eq_error_iff, sendBufferDone_error_iff hopen' hcount, hqueued]
    simp [SendList.StopsComplete, hfailed, hunc]

theorem sendBufferLow_error_iff (hhigh : s.high.chain = []) (hcount : s.Counted) :
    s.sendBufferLow rs = .error e ↔
      e = .notEmpty ∧ StopsAtPacket s.protocol s.low.chain (effective s.protocol rs) := by
  unfold sendBufferLow
  split_ifs with hnil
  · rw [map_eq_error_iff, sendBufferDone_error_iff hopen hcount]
    simp [queued, hhigh, hnil, not_stopsAtPacket_nil]
  · rw [lowSent_error_iff hopen hhigh (counted_putLow hcount (sendList_spec ..)),
      sendList_stopsComplete_iff]

theorem highSent_error_iff (hcount : s.Counted) {r : SendList ι}
    (hspec : SendListSpec s.protocol s.high.chain s.high.tail s.wbSize r) :
    s.highSent r = .error e ↔ e = .notEmpty ∧ ∃ rs₂, r.Empties s.protocol rs₂ ∧
        StopsAtPacket s.protocol s.low.chain rs₂ := by
  have hopen' : (s.putHigh r).IsOpen := hopen
  unfold highSent
  split_ifs with hfailed hnil
  · simp [forceClose_of_isOpen hopen', Except.map, SendList.Empties, hfailed]
  · rw [map_eq_error_iff, sendBufferLow_error_iff hopen' hnil (counted_putHigh hcount hspec)]
    simp [SendList.Empties, hfailed, hnil, putHigh]
  · simp [SendList.Empties, hnil]

end

/-- The results send the high list completely and stop the flush of the low list in a buffer
whose pointer then is the address of its packet. -/
def StopsInLow (s : Socket ι) (rs : List WriteResult) : Prop :=
  ∃ rs₂, PassesAll s.protocol s.high.chain (effective s.protocol rs) rs₂ ∧
    StopsAtPacket s.protocol s.low.chain rs₂

/-- The assertions of `send_buffer_` that fail: the first one if the head of the low list is a
user object with its data elsewhere, the one in step 4 if the flush stops in the low list at
the start of a packet. -/
theorem flush_error_iff (hopen : s.IsOpen) (hs : s.Inv soi) (hcount : s.Counted) :
    s.sendBuffer_ rs = .error e ↔
      e = .lowUncomplete ∧ (∃ wb ∈ s.low.chain.head?, wb.packet.Displaced soi) ∨
      e = .notEmpty ∧ (¬ ∃ wb ∈ s.low.chain.head?, wb.packet.Displaced soi) ∧ s.StopsInLow rs := by
  rw [← low_uncomplete_iff hs, sendBuffer_]
  split_ifs with hunc
  · rw [Except.error.injEq]
    constructor
    · intro h
      exact .inl ⟨h.symm, hunc⟩
    · rintro (⟨rfl, -⟩ | ⟨-, h, -⟩)
      · rfl
      · exact absurd hunc h
  · rw [highSent_error_iff hopen hcount (sendList_spec ..)]
    constructor
    · rintro ⟨he, rs₂, hempties, hstop⟩
      exact .inr ⟨he, hunc, rs₂, sendList_empties_iff.mp hempties, hstop⟩
    · rintro (⟨-, h⟩ | ⟨he, -, rs₂, hpass, hstop⟩)
      · exact absurd h hunc
      · exact ⟨he, rs₂, sendList_empties_iff.mpr hpass, hstop⟩

/-! ## The direct-write buffer -/

/-- The write buffer that `send_buffer` makes for `dw_buffer`. -/
def dwBuffer (soi : SocketObjectInterface) (s : Socket ι) : List (WriteBuffer ι) :=
  match s.dw with
  | none => []
  | some (p, offset) => [ofPacket soi p offset none]

/-- What is sent before the low list. -/
def pending (soi : SocketObjectInterface) (s : Socket ι) : List (WriteBuffer ι) :=
  s.dwBuffer soi ++ s.high.chain

theorem pending_congr {x y : Socket ι} (hdw : x.dw = y.dw) (hhigh : x.high = y.high) :
    x.pending soi = y.pending soi := by
  rw [pending, pending, dwBuffer, dwBuffer, hdw, hhigh]

theorem pending_of_dw {x : Socket ι} (hdw : x.dw = none) : x.pending soi = x.high.chain := by
  simp [pending, dwBuffer, hdw]

/-- `send_buffer` first moves the direct-write buffer to the front of the high list. -/
structure Merged (soi : SocketObjectInterface) (s s' : Socket ι) : Prop where
  type : s'.type = s.type
  protocol : s'.protocol = s.protocol
  udpconnecting : s'.udpconnecting = s.udpconnecting
  dw : s'.dw = none
  low : s'.low = s.low
  high : s'.high.chain = s.pending soi
  high_wf : s.high.WF → s'.high.WF
  counted : s.Counted → s'.Counted
  wantWrite : s'.wantWrite = s.wantWrite

theorem merged_mergeDw (soi : SocketObjectInterface) (s : Socket ι) :
    Merged soi s (s.mergeDw soi) := by
  unfold mergeDw
  split
  next hdw => exact ⟨rfl, rfl, rfl, hdw, rfl, by simp [pending, dwBuffer, hdw], id, id, rfl⟩
  next p offset hdw =>
    refine ⟨rfl, rfl, rfl, rfl, rfl, by simp [pending, dwBuffer, hdw, pushFront],
      fun h => WbList.wf_insert h _, fun h => ?_, rfl⟩
    simp only [Counted, WbList.size, pushFront, WbList.chain_insert, map_cons, sum_cons] at h ⊢
    omega

/-- What a flush has written on TCP was at the front of the lists. -/
theorem SentFrom.of_tcp {f : Flush ι} {l : List (WriteBuffer ι)} (htcp : s.protocol = .tcp)
    (hsent : (s.mergeDw soi).SentFrom f l) :
    Sent (s.pending soi ++ s.low.chain) f.written l := by
  have hmerged := merged_mergeDw soi s
  obtain ⟨w, hw, hsent⟩ := hsent
  obtain rfl := hw (hmerged.protocol.trans htcp)
  rwa [queued, hmerged.high, hmerged.low] at hsent

theorem Merged.isOpen (h : Merged soi s s') (hopen : s.IsOpen) : s'.IsOpen := by
  unfold IsOpen
  rwa [h.type]

theorem Merged.inv (h : Merged soi s s') (hs : s.Inv soi) : s'.Inv soi where
  high_wf := h.high_wf hs.high_wf
  low_wf := by rw [h.low]; exact hs.low_wf
  low_unsent := by rw [h.low]; exact hs.low_unsent

/-! ## Queueing a packet -/

section Send

variable {p : Packet ι} {priority : Priority}

/-- `send_socket` frees the packet on a socket of this type. -/
def Drops (type : SocketType) : Prop :=
  type = .invalid ∨ type = .halfclose ∨ type = .paccept ∨ type = .plisten ∨ type = .listen

/-- `s'` is `s` with a new buffer for the packet at the end of a list. Only a packet of low
priority can go to the low list, and on TCP not if the socket is connected and idle; a connected
socket with empty lists gets the write event. -/
structure Queued (soi : SocketObjectInterface) (s : Socket ι) (p : Packet ι)
    (priority : Priority) (s' : Socket ι) : Prop where
  same : SameFlags s s'
  udpAddress : s'.udpAddress = s.udpAddress
  lists : ∃ wb : WriteBuffer ι, wb.packet = p ∧ wb.Unsent soi ∧
    s'.wbSize = s.wbSize + wb.sz ∧ (s'.high = ⟨s.high.chain ++ [wb], some p.tag⟩ ∧ s'.low = s.low ∨
        priority = .low ∧ s'.low = ⟨s.low.chain ++ [wb], some p.tag⟩ ∧ s'.high = s.high)
  wantWrite : s'.wantWrite = true ∨
    s'.wantWrite = s.wantWrite ∧ ¬ (s.queued = [] ∧ s.type = .connected)

theorem Queued.of_high (h : Queued soi s p .high s') : Queued soi s p priority s' := by
  obtain ⟨wb, hp, hunsent, hsize, hlists | ⟨hpri, -⟩⟩ := h.lists
  · exact ⟨h.same, h.udpAddress, ⟨wb, hp, hunsent, hsize, .inl hlists⟩, h.wantWrite⟩
  · cases hpri

theorem Queued.warnSend (h : Queued soi s p priority s') : Queued soi s p priority s'.warnSend := by
  by_cases hwarn : s'.SizeWarning
  · rw [Socket.warnSend, if_pos hwarn]
    exact ⟨⟨h.same.type, h.same.protocol, h.same.dw, h.same.udpconnecting⟩, h.udpAddress, h.lists,
      h.wantWrite⟩
  · rwa [Socket.warnSend, if_neg hwarn]

variable [DecidableEq ι]

/-- A buffer is linked, and then `sp_write` is called if the socket is connected and idle. -/
theorem link_ok (hs : s.Inv soi) (p : Packet ι) (priority : Priority)
    (address : Option UdpAddress) {idle : Bool}
    (hidle : s.queued = [] ∧ s.type = .connected → idle = true) :
    ∃ s', s.link priority (.ofPacket soi p 0 address) = .ok s' ∧
      Queued soi s p priority { s' with wantWrite := s'.wantWrite || idle } := by
  have hwant : ∀ b : Bool, (b || idle) = true ∨
      (b || idle) = b ∧ ¬ (s.queued = [] ∧ s.type = .connected) := by
    intro b
    cases idle with
    | true => exact .inl (Bool.or_true b)
    | false => exact .inr ⟨Bool.or_false b, fun h => by simpa using hidle h⟩
  unfold link
  cases priority with
  | high =>
    rw [WbList.append_ok hs.high_wf]
    exact ⟨_, rfl, ⟨rfl, rfl, rfl, rfl⟩, rfl, ⟨_, rfl, WriteBuffer.unsent_ofPacket p address, rfl,
      .inl ⟨rfl, rfl⟩⟩, hwant _⟩
  | low =>
    rw [WbList.append_ok hs.low_wf]
    exact ⟨_, rfl, ⟨rfl, rfl, rfl, rfl⟩, rfl, ⟨_, rfl, WriteBuffer.unsent_ofPacket p address, rfl,
      .inr ⟨rfl, rfl, rfl⟩⟩, hwant _⟩

theorem appendSendbuffer_ok (hs : s.Inv soi) (p : Packet ι) (priority : Priority)
    (address : Option UdpAddress) {idle : Bool}
    (hidle : s.queued = [] ∧ s.type = .connected → idle = true) (sent : List (Datagram ι)) :
    ∃ x, s.appendSendbuffer soi p priority address idle sent = .ok x ∧
      Queued soi s p priority x.1 := by
  obtain ⟨s', hlink, hq⟩ := link_ok hs p priority address hidle
  unfold appendSendbuffer
  rw [hlink]
  exact ⟨_, rfl, hq.warnSend⟩

/-- `send_socket` frees the packet, sends it as a datagram or queues it. -/
theorem sendSocket_cases (hs : s.Inv soi) (p : Packet ι) (priority : Priority)
    (address : Option UdpAddress) (r : WriteResult) :
    ∃ x, s.sendSocket soi p priority address r = .ok x ∧
      (x.1 = s ∧ (s.protocol = .tcp → Drops s.type) ∨
        ¬ Drops s.type ∧ Queued soi s p priority x.1) := by
  unfold sendSocket
  split_ifs with h₁ h₂ hidle htcp htcp
  · exact ⟨_, rfl, .inl ⟨rfl, fun _ => by unfold Drops; tauto⟩⟩
  · exact ⟨_, rfl, .inl ⟨rfl, fun _ => by unfold Drops; tauto⟩⟩
  all_goals have hopen : ¬ Drops s.type := by unfold Drops; tauto
  · obtain ⟨x, hx, hq⟩ := appendSendbuffer_ok hs p .high none (fun _ => rfl) []
    exact ⟨x, hx, .inr ⟨hopen, hq.of_high⟩⟩
  · cases r with
    | wrote n =>
      dsimp only
      split_ifs
      · exact ⟨_, rfl, .inl ⟨rfl, fun h => absurd h htcp⟩⟩
      · obtain ⟨x, hx, hq⟩ := appendSendbuffer_ok hs p priority _ (fun _ => rfl) _
        exact ⟨x, hx, .inr ⟨hopen, hq⟩⟩
    | eintr | again | error =>
      obtain ⟨x, hx, hq⟩ := appendSendbuffer_ok hs p priority _ (fun _ => rfl) _
      exact ⟨x, hx, .inr ⟨hopen, hq⟩⟩
  all_goals
    have hbusy : s.queued = [] ∧ s.type = .connected → false = true := fun h =>
      absurd ⟨sendBufferEmpty_iff.mpr (append_eq_nil_iff.mp h.1), h.2⟩ hidle
    obtain ⟨x, hx, hq⟩ := appendSendbuffer_ok hs p priority _ hbusy _
    exact ⟨x, hx, .inr ⟨hopen, hq⟩⟩

end Send

end Socket

end Uboss.Core
