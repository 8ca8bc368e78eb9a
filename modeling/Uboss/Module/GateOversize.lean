import Uboss.Module.GateForward

/-!
# Large packets

With headers of four bytes a packet can announce up to 4G, and the gate is to close a connection
that announces 16M or more. It compares the length with what has come before it compares it with
this bound, so that it closes the connection only when all of the packet has come. A length from 2G
on is negative in the source, and is waited for without end.
-/

namespace Uboss.Module

open Math Option List Int

/-- The pending header as an unsigned number. -/
def Databuffer.headerWord (db : Databuffer) : ℕ := (db.header % 2 ^ 32).toNat

/-- The pending length and the bytes that have come are less than 16M. -/
def Connection.Bounded (c : Connection) : Prop :=
  c.buffer.headerWord < 0x1000000 ∧ c.buffer.size < 0x1000000

/-- What is left of a stream when all packets have been taken off. -/
def remainder (headerSize : ℕ) (routed : Bool) (stream : List UInt8) : List UInt8 :=
  (frames (roundCut headerSize routed) stream.length stream).2

/-- The header in front, if it has come, announces less than 16M, or all of a packet that can be
announced by an `int`. -/
def SmallHeader (stream : List UInt8) : Prop := 4 ≤ stream.length → announced 4 stream < 0x1000000 ∨
    announced 4 stream < 2 ^ 31 ∧ 4 + announced 4 stream ≤ stream.length

instance (stream : List UInt8) : Decidable (SmallHeader stream) :=
  inferInstanceAs (Decidable (_ → _))

/-- No packet of 16M or more is announced without having come. -/
def Gate.Spared (g : Gate) : GateInput → Prop
  | .data id buffer => ∀ c, g.conn id = some c →
      SmallHeader (remainder 4 (g.receiver c id).isSome (c.buffer.pending 4 ++ buffer))
  | _ => True

theorem bounded_empty {c : Connection} : ({ c with buffer := .empty } : Connection).Bounded := by
  constructor
  · show Databuffer.empty.headerWord < 0x1000000
    decide
  · exact Nat.succ_pos _

variable {stream rest : List UInt8} {packets : List (List UInt8)}

theorem remainder_eq {headerSize : ℕ} {routed : Bool} (hk : 0 < headerSize)
    (hcuts : Cuts (roundCut headerSize routed) stream packets rest)
    (hnone : cutPacket headerSize rest = none) : remainder headerSize routed stream = rest := by
  obtain ⟨hframes, hend⟩ :=
    cuts_frames (fun _ _ _ hcut => length_lt_of_roundCut hk hcut) (Nat.le_refl stream.length)
  have hnone' : roundCut headerSize routed rest = none := by
    rw [roundCut, hnone, map_none]
  exact (hcuts.unique hframes hnone' hend).2.symm

theorem frontSize_four (stream : List UInt8) :
    frontSize 4 stream = Int.bmod (announced 4 stream) (2 ^ 32) := by
  rw [frontSize, headerOf, if_neg (by decide)]
  rfl

theorem frontSize_emod (h : 4 ≤ stream.length) :
    frontSize 4 stream % 2 ^ 32 = announced 4 stream ∧ announced 4 stream < 2 ^ 32 := by
  have hlt : announced 4 stream < 2 ^ 32 := by
    have hbytes : leNat (stream.take 4).reverse < 2 ^ (8 * (stream.take 4).reverse.length) :=
      leNat_lt
    rw [length_reverse, length_take, Nat.min_eq_left h] at hbytes
    exact hbytes
  refine ⟨?_, hlt⟩
  rw [frontSize_four]
  refine (bmod_emod ..).trans ?_
  exact_mod_cast Nat.mod_eq_of_lt hlt

/-- A header is small if and only if all of a packet that is too large has come, or the length is
less than 16M. -/
theorem smallHeader_iff : SmallHeader stream ↔
      Oversized 4 stream ∨ (4 ≤ stream.length → announced 4 stream < 0x1000000) := by
  by_cases hle : 4 ≤ stream.length
  · have hbody : (stream.drop 4).length = stream.length - 4 := length_drop
    by_cases hsigned : announced 4 stream < 2 ^ 31
    · have hfront := frontSize_eq (.inr rfl) hsigned
      rw [SmallHeader, Oversized, hfront, hbody]
      omega
    · have hlarge : ¬ Oversized 4 stream := by
        intro hover
        obtain ⟨hmod, hlt⟩ := frontSize_emod hle
        obtain ⟨-, hpos, hlength⟩ := hover
        have hbmod : frontSize 4 stream < ((2 ^ 32 : ℕ) + 1) / 2 := by
          rw [frontSize_four]
          exact bmod_lt (by decide)
        omega
      rw [SmallHeader, or_iff_right hlarge]
      omega
  · exact iff_of_true (fun h => absurd h hle) (.inr fun h => absurd h hle)

namespace Gate

variable {g g' : Gate} {c c' : Connection} {id : ℕ} {m : GateInput} {w : List GateInput}

theorem bounded_iff_of_data (h : g.Sound) (hk : g.headerSize = 4) (hconn : g.conn id = some c)
    (buffer : List UInt8) :
    ∃ g' c', g.dispatchMessage c id buffer = some (g', c') ∧ (c'.Bounded ↔
        SmallHeader (remainder 4 (g.receiver c id).isSome (c.buffer.pending 4 ++ buffer))) := by
  have hready := h.conn hconn
  obtain ⟨packets, rest, mp, cuts, db, calls, hdispatch, -, hcuts, hnone, hvalid, hend⟩ :=
    dispatchMessage_outcome h.headerSize hready id buffer
  rw [hk] at hcuts hnone hend
  refine ⟨_, _, hdispatch, ?_⟩
  have hremainder := remainder_eq (by decide) hcuts hnone
  rw [show (g.receiver { c with received := c.received + buffer.length } id) = g.receiver c id
    from rfl] at hremainder
  rw [hremainder, smallHeader_iff]
  rcases hend with ⟨hover, -, rfl⟩ | ⟨hnot, -, hheaded, hpending, hheader⟩
  · -- the connection is closed, and its buffer is empty
    exact iff_of_true bounded_empty (.inl hover)
  rw [or_iff_right hnot]
  show db.headerWord < 0x1000000 ∧ db.size < 0x1000000 ↔ _
  by_cases hle : 4 ≤ rest.length
  · rw [if_pos hle] at hheader
    obtain ⟨hmod, -⟩ := frontSize_emod hle
    have hword : db.headerWord = announced 4 rest := by
      rw [Databuffer.headerWord, hheader, hmod, toNat_natCast]
    rw [hword]
    refine ⟨fun hbounded _ => hbounded.1, fun hall => ⟨hall hle, ?_⟩⟩
    have hsmall : announced 4 rest < 0x1000000 := hall hle
    have hsigned : announced 4 rest < 2 ^ 31 := by omega
    have hfront := frontSize_eq (.inr rfl) hsigned
    have hbody : (rest.drop 4).length = rest.length - 4 := length_drop
    -- the packet is not complete
    have hshort : rest.length - 4 < announced 4 rest := by
      by_contra hlong
      unfold cutPacket at hnone
      simp only at hnone
      rw [hfront, hbody, if_pos (by omega)] at hnone
      cases hnone
    have hne : db.header ≠ 0 := by
      rw [hheader, hfront]
      omega
    have hunread := (hheaded.pending_eq (.inr rfl) hne).2.2
    rw [hvalid.size, ← hunread, hpending, hbody]
    omega
  · rw [if_neg hle] at hheader
    rw [Databuffer.pending_of_eq_zero hheader] at hpending
    refine iff_of_true ⟨?_, ?_⟩ fun hlong => absurd hlong hle
    · rw [Databuffer.headerWord, hheader]
      decide
    · rw [hvalid.size, hpending]
      omega

/-- The data of the connections after a step: only a chunk of it changes what a connection has. -/
theorem origin_of_step (h : g.Sound) (hstep : g.step m = some g') :
    g'.headerSize = g.headerSize ∧ ∀ id c', g'.conn id = some c' → (∀ buffer, m ≠ .data id buffer) →
      c'.buffer = .empty ∨ ∃ c, g.conn id = some c ∧ c'.buffer = c.buffer := by
  -- one entry of the table is written
  have hwrite : ∀ {id' : ℕ} {c₁ : Option Connection} {g₁ : Gate}, g₁.conn = g.conn →
      (∀ c', c₁ = some c' → c'.buffer = .empty ∨ ∃ c, g.conn id' = some c ∧ c'.buffer = c.buffer) →
      ∀ id c', (g₁.setConn id' c₁).conn id = some c' →
        c'.buffer = .empty ∨ ∃ c, g.conn id = some c ∧ c'.buffer = c.buffer := by
    intro id' c₁ g₁ hsame hnew id c' hc'
    rw [conn_setConn, hsame] at hc'
    rcases update_eq_some_iff.mp hc' with ⟨rfl, hwritten⟩ | ⟨-, hold⟩
    · exact hnew c' hwritten
    · exact .inr ⟨c', hold, rfl⟩
  cases moved_of_step hstep with
  | same hconn _ hheader =>
    refine ⟨hheader, fun id c' hc' _ => .inr ⟨c', ?_, rfl⟩⟩
    rw [← hconn]
    exact hc'
  | @data id buffer c _ _ hconn hdispatch =>
    obtain ⟨packets, rest, mp, cuts, db, calls, houtcome, -⟩ :=
      dispatchMessage_outcome h.headerSize (h.conn hconn) id buffer
    cases hdispatch.symm.trans houtcome
    refine ⟨rfl, fun id' c' hc' hdata => .inr ⟨c', ?_, rfl⟩⟩
    have hne : id' ≠ id := by
      rintro rfl
      exact hdata buffer rfl
    exact (Function.update_of_ne hne _ _).symm.trans hc'
  | @closed _ _ _ r =>
    rw [conn_report, headerSize_report]
    have hsame : ({ g with count := g.count - 1, mp := r.2 } : Gate).conn = g.conn := rfl
    exact ⟨rfl, fun id c' hc' _ => hwrite hsame (fun c' hc' => by cases hc') id c' hc'⟩
  | accepted =>
    rw [conn_report, headerSize_report]
    have hsame : ({ g with count := g.count + 1 } : Gate).conn = g.conn := rfl
    refine ⟨rfl, fun id c' hc' _ => hwrite hsame (fun c' hc' => ?_) id c' hc'⟩
    obtain rfl := some.inj hc'
    exact .inl rfl
  | @forwarded _ _ _ c hconn =>
    have hsame : g.conn = g.conn := rfl
    refine ⟨rfl, fun id c' hc' _ => hwrite hsame (fun c' hc' => ?_) id c' hc'⟩
    obtain rfl := some.inj hc'
    exact .inr ⟨c, hconn, rfl⟩

theorem bounded_of_step (h : g.Sound) (hk : g.headerSize = 4)
    (hbounded : ∀ id c, g.conn id = some c → c.Bounded) (hstep : g.step m = some g') :
    (∀ id c, g'.conn id = some c → c.Bounded) ↔ g.Spared m := by
  have hother : ∀ id c', g'.conn id = some c' → (∀ buffer, m ≠ .data id buffer) → c'.Bounded := by
    intro id c' hc' hdata
    rcases (origin_of_step h hstep).2 id c' hc' hdata with hempty | ⟨c, hc, hbuffer⟩
    · rw [Connection.Bounded, hempty]
      exact bounded_empty (c := c')
    · rw [Connection.Bounded, hbuffer]
      exact hbounded id c hc
  by_cases hdata : ∃ id buffer, m = .data id buffer
  · obtain ⟨id, buffer, rfl⟩ := hdata
    cases hconn : g.conn id with
    | none =>
      refine iff_of_true (fun id' c' hc' => hother id' c' hc' ?_) fun c hc => ?_
      · rintro buffer' heq
        obtain ⟨rfl, -⟩ := GateInput.data.inj heq
        rw [step, hconn] at hstep
        obtain rfl := some.inj hstep
        cases hconn.symm.trans hc'
      · cases hconn.symm.trans hc
    | some c =>
      obtain ⟨g₁, c₁, hdispatch, hiff⟩ := bounded_iff_of_data h hk hconn buffer
      have hspared : g.Spared (.data id buffer) ↔ c₁.Bounded := by
        rw [hiff]
        refine ⟨fun hall => hall c hconn, fun hsmall c' hc' => ?_⟩
        obtain rfl : c = c' := some.inj (hconn.symm.trans hc')
        exact hsmall
      have hconn' : g'.conn id = some c₁ := by
        rw [step, hconn] at hstep
        simp only at hstep
        rw [hdispatch] at hstep
        obtain rfl := some.inj hstep
        exact Function.update_self ..
      rw [hspared]
      refine ⟨fun hall => hall id c₁ hconn', fun hsmall id' c' hc' => ?_⟩
      by_cases hid : id' = id
      · subst hid
        obtain rfl : c₁ = c' := some.inj (hconn'.symm.trans hc')
        exact hsmall
      · refine hother id' c' hc' fun buffer' heq => hid ?_
        exact (GateInput.data.inj heq).1.symm
  · refine iff_of_true ?_ ?_
    · exact fun id c' hc' => hother id c' hc' fun buffer heq => hdata ⟨id, buffer, heq⟩
    · cases m with
      | data id buffer => exact absurd ⟨id, buffer, rfl⟩ hdata
      | _ => trivial

/-- In every run of a gate with headers of four bytes in which no packet of 16M or more is announced
without having come, all lengths that are waited for are less than 16M, and less has come; and they
no longer are when such a packet is announced. -/
theorem bounded_iff_spared {watchdog : Option UInt32} {clientTag : UInt32} {max : ℕ}
    {listenId : Option ℕ} {g₀ : Gate}
    (hinit : init 'L' watchdog clientTag max listenId = some g₀) (hrun : Run step Spared g₀ w g) :
    (∀ id c, g.conn id = some c → c.Bounded) ∧
      ∀ m g', g.step m = some g' → ((∀ id c, g'.conn id = some c → c.Bounded) ↔ g.Spared m) := by
  have hstart : g₀.headerSize = 4 ∧ ∀ id c, g₀.conn id = some c → c.Bounded := by
    unfold init at hinit
    split at hinit
    · cases hinit
    obtain rfl := Option.some.inj hinit
    exact ⟨rfl, fun id c hc => by cases hc⟩
  have hall : g.Sound ∧ g.headerSize = 4 ∧ ∀ id c, g.conn id = some c → c.Bounded := by
    refine hrun.invariant (P := fun g : Gate => g.Sound ∧ g.headerSize = 4 ∧
      ∀ id c, g.conn id = some c → c.Bounded) ⟨.of_init hinit, hstart⟩ ?_
    rintro g m g' hspared hstep ⟨hsound, hk, hbounded⟩
    exact ⟨(step_spec hsound hstep).1, (origin_of_step hsound hstep).1.trans hk,
      (bounded_of_step hsound hk hbounded hstep).mpr hspared⟩
  obtain ⟨hsound, hk, hbounded⟩ := hall
  exact ⟨hbounded, fun m g' hstep => bounded_of_step hsound hk hbounded hstep⟩

/-- A packet that is announced and is small. -/
theorem bounded_iff_spared_small : ∃ g₀ g, init 'L' (some 1) 0 1 (some 0) = some g₀ ∧
    Run step Spared g₀ [.accept 0 5 [], .data 5 [0, 0, 0, 2, 65]] g ∧
    ∀ id c, g.conn id = some c → c.Bounded := by
  have hinit : init 'L' (some 1) 0 1 (some 0) = some ((init 'L' (some 1) 0 1 (some 0)).get rfl) :=
    rfl
  obtain ⟨g₁, hopen, hsmall, g₂, hdata⟩ : ∃ g₁,
      step ((init 'L' (some 1) 0 1 (some 0)).get rfl) (.accept 0 5 []) = some g₁ ∧
      (∀ c, g₁.conn 5 = some c → SmallHeader
        (remainder 4 (g₁.receiver c 5).isSome (c.buffer.pending 4 ++ [0, 0, 0, 2, 65]))) ∧
      ∃ g₂, step g₁ (.data 5 [0, 0, 0, 2, 65]) = some g₂ := by
    refine ⟨_, rfl, fun c hc => ?_, _, rfl⟩
    obtain rfl := Option.some.inj hc
    decide
  have hrun : Run step Spared ((init 'L' (some 1) 0 1 (some 0)).get rfl)
      [.accept 0 5 [], .data 5 [0, 0, 0, 2, 65]] g₂ :=
    ((Run.nil _).snoc (a := .accept 0 5 []) trivial hopen).snoc hsmall hdata
  exact ⟨_, g₂, hinit, hrun, (bounded_iff_spared hinit hrun).1⟩

/-- A packet of 16M is waited for, and so is one of which the length is negative. -/
theorem large_header_waits : (∃ g₀ g c, init 'L' (some 1) 0 1 (some 0) = some g₀ ∧
      exec step g₀ [.accept 0 5 [], .data 5 [1, 0, 0, 0, 65]] = some g ∧
      g.calls = [.report 1 (.opened 5 [])] ∧ g.conn 5 = some c ∧
      ¬ c.buffer.headerWord < 0x1000000) ∧
    ∃ g₀ g c, init 'L' (some 1) 0 1 (some 0) = some g₀ ∧
      exec step g₀ [.accept 0 5 [], .data 5 [255, 255, 255, 255, 65]] = some g ∧
      g.calls = [.report 1 (.opened 5 [])] ∧ g.conn 5 = some c ∧
      ¬ c.buffer.headerWord < 0x1000000 :=
  ⟨⟨_, _, _, rfl, rfl, rfl, rfl, by decide⟩, _, _, _, rfl, rfl, rfl, rfl, by decide⟩

end Gate

end Uboss.Module
