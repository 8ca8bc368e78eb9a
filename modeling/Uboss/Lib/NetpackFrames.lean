import Uboss.Lib.Netpack

/-!
# The packets of a stream

Whatever the pieces in which the streams of several sockets arrive, and however they are mixed, each
socket gets the complete packets of its stream, and the bytes of the last one are kept for it until
it is closed.
-/

namespace Uboss.Lib

open Math List Int UInt8

/-! ### The queue -/

namespace NetQueue

variable {q : NetQueue} {np : NetPack}

/-- The packets in the queue. -/
def contents (q : NetQueue) : List NetPack :=
  ringList q.queue q.cap q.head (ringLength q.cap q.head q.tail)

@[simp] theorem contents_link (uc : Uncomplete) : (q.link uc).contents = q.contents := rfl

@[simp] theorem contents_unlink (fd : ℕ) : (q.unlink fd).contents = q.contents := rfl

theorem contents_pushData (q : NetQueue) (np : NetPack) :
    (q.pushData np).contents = q.contents ++ [np] := by
  have hlt := ringLength_lt q.head_lt q.tail_lt
  have htail := tail_eq_mod q.head_lt q.tail_lt
  have hpush := ringList_push q.queue q.head np hlt
  rw [← htail] at hpush
  unfold pushData
  dsimp only
  split_ifs with hfull
  · -- the ring is full
    have hcap := ringLength_of_full q.tail_lt hfull
    rw [hcap] at hpush
    have hlength : ringLength (q.cap + queueSize) 0 q.cap = q.cap := by
      simp [ringLength]
    rw [contents, contents, expandQueue, hlength, ← hpush]
    exact ringList_unroll (Nat.le_add_right ..) fun i _ => rfl
  · rw [contents, contents, ringLength_next_tail q.head_lt q.tail_lt hfull]
    exact hpush

@[simp] theorem hash_pushData (q : NetQueue) (np : NetPack) : (q.pushData np).hash = q.hash := by
  unfold pushData
  dsimp only
  split_ifs <;> rfl

theorem lpop_of_nil (h : q.contents = []) : q.lpop = none := by
  have hlength : ringLength q.cap q.head q.tail = 0 := by
    have := congrArg List.length h
    rwa [contents, length_ringList] at this
  exact if_pos ((ringLength_eq_zero_iff q.head_lt).mp hlength)

theorem lpop_of_cons {l : List NetPack} (h : q.contents = np :: l) :
    ∃ q', q.lpop = some (np, q') ∧ q'.contents = l ∧ q'.hash = q.hash := by
  have hne : q.head ≠ q.tail := by
    intro heq
    rw [contents, (ringLength_eq_zero_iff q.head_lt).mpr heq] at h
    cases h
  have hlength := ringLength_next_head q.head_lt q.tail_lt hne
  rw [contents, hlength, ringList_pop q.head_lt] at h
  obtain ⟨rfl, hrest⟩ := cons.inj h
  exact ⟨_, if_neg hne, hrest, rfl⟩

theorem popAll_eq {fuel : ℕ} (hfuel : q.contents.length ≤ fuel) :
    (popAll fuel q).1 = q.contents ∧ (popAll fuel q).2.contents = [] ∧
      (popAll fuel q).2.hash = q.hash := by
  induction fuel generalizing q with
  | zero =>
    have hnil : q.contents = [] := length_eq_zero_iff.mp (Nat.le_zero.mp hfuel)
    exact ⟨hnil.symm, hnil, rfl⟩
  | succ fuel ih =>
    cases hcontents : q.contents with
    | nil =>
      rw [popAll, lpop_of_nil hcontents]
      exact ⟨rfl, hcontents, rfl⟩
    | cons np l =>
      obtain ⟨q', hpop, hrest, hhash⟩ := lpop_of_cons hcontents
      rw [hcontents, length_cons] at hfuel
      obtain ⟨hfirst, hempty, hhash'⟩ := ih (q := q') (by rw [hrest]; omega)
      rw [popAll, hpop]
      exact ⟨congrArg (np :: ·) (hfirst.trans hrest), hempty, hhash'.trans hhash⟩

theorem contents_length_le_cap (q : NetQueue) : q.contents.length ≤ q.cap := by
  rw [contents, length_ringList]
  exact (ringLength_lt q.head_lt q.tail_lt).le

/-! ### The table -/

/-- A socket has at most one packet that is not complete. -/
def Single (q : NetQueue) : Prop := Chains.Single hashFd Uncomplete.isOf q.hash

variable {fd fd' : ℕ} {uc : Uncomplete}

theorem isOf_iff : uc.isOf fd = true ↔ uc.pack.id = fd := decide_eq_true_iff

theorem find_link (huc : uc.pack.id = fd) : (q.link uc).find fd = some uc := by
  subst huc
  exact Chains.find_push (isOf_iff.mpr rfl)

theorem find_link_of_ne (huc : uc.pack.id = fd) (hne : fd' ≠ fd) :
    (q.link uc).find fd' = q.find fd' :=
  Chains.find_push_of_ne fun h => hne ((isOf_iff.mp h).symm.trans huc)

theorem find_unlink_of_ne (hne : fd' ≠ fd) : (q.unlink fd).find fd' = q.find fd' :=
  Chains.find_unlink_of_ne fun _ h h' => hne ((isOf_iff.mp h').symm.trans (isOf_iff.mp h))

theorem find_pushData (q : NetQueue) (np : NetPack) (fd : ℕ) :
    (q.pushData np).find fd = q.find fd := by
  rw [find, hash_pushData, find]

theorem Single.pushData (hq : q.Single) (np : NetPack) : (q.pushData np).Single := by
  rw [Single, hash_pushData]
  exact hq

theorem Single.link (hq : q.Single) (hfind : q.find uc.pack.id = none) : (q.link uc).Single :=
  Chains.Single.push hq hfind fun _ h => (isOf_iff.mp h).symm

end NetQueue

/-! ### Packets -/

section Cut

variable {a b : UInt8} {rest stream : List UInt8} {fs : List (List UInt8)}

theorem readSize_eq (a b : UInt8) : readSize a b = 256 * a.toNat + b.toNat := by
  have hb : b.toNat < 2 ^ 8 := b.toNat_lt
  rw [readSize, ← Nat.shiftLeft_add_eq_or_of_lt hb, Nat.shiftLeft_eq]
  omega

theorem cutPacket_of_le (h : readSize a b ≤ rest.length) :
    cutPacket (a :: b :: rest) = some (rest.take (readSize a b), rest.drop (readSize a b)) := by
  rw [readSize_eq] at h ⊢
  exact if_pos h

theorem cutPacket_of_lt (h : rest.length < readSize a b) : cutPacket (a :: b :: rest) = none := by
  rw [readSize_eq] at h
  exact if_neg (not_le.mpr h)

theorem cutPacket_eq_some {f ys : List UInt8} (h : cutPacket stream = some (f, ys)) :
    ∃ a b rest, stream = a :: b :: rest ∧ readSize a b ≤ rest.length ∧
      f = rest.take (readSize a b) ∧ ys = rest.drop (readSize a b) := by
  match stream with
  | [] => cases h
  | [_] => cases h
  | a :: b :: rest =>
    by_cases hle : readSize a b ≤ rest.length
    · rw [cutPacket_of_le hle] at h
      obtain ⟨rfl, rfl⟩ := Prod.mk.inj (Option.some_inj.mp h)
      exact ⟨a, b, rest, rfl, hle, rfl, rfl⟩
    · rw [cutPacket_of_lt (not_le.mp hle)] at h
      cases h

theorem prefixStable_cutPacket : PrefixStable cutPacket := by
  intro xs ys f h zs
  obtain ⟨a, b, rest, rfl, hle, rfl, rfl⟩ := cutPacket_eq_some h
  have hle' : readSize a b ≤ (rest ++ zs).length := by
    rw [length_append]
    omega
  rw [cons_append, cons_append, cutPacket_of_le hle',
    take_append_of_le_length hle, drop_append_of_le_length hle]

theorem cuts_packets (stream : List UInt8) :
    Cuts cutPacket stream (packets stream) (leftover stream) ∧
      cutPacket (leftover stream) = none := by
  refine cuts_frames (fun xs f ys h => ?_) (le_refl _)
  obtain ⟨a, b, rest, rfl, -, -, rfl⟩ := cutPacket_eq_some h
  rw [length_drop, length_cons, length_cons]
  omega

theorem packets_eq {r : List UInt8} (hcuts : Cuts cutPacket stream fs r) (hr : cutPacket r = none) :
    packets stream = fs ∧ leftover stream = r :=
  (cuts_packets stream).1.unique hcuts (cuts_packets stream).2 hr

theorem packets_append {chunk r : List UInt8}
    (hcuts : Cuts cutPacket (leftover stream ++ chunk) fs r) (hr : cutPacket r = none) :
    packets (stream ++ chunk) = packets stream ++ fs ∧ leftover (stream ++ chunk) = r := by
  have hbefore := (cuts_packets stream).1.append_stream prefixStable_cutPacket chunk
  exact packets_eq (hbefore.append_frames hcuts) hr

theorem cutPacket_lpack {msg frame : List UInt8} (h : lpack msg = some frame)
    (rest : List UInt8) : cutPacket (frame ++ rest) = some (msg, rest) := by
  unfold lpack at h
  split_ifs at h with hlong
  obtain rfl := Option.some_inj.mp h
  have hsize : readSize (ofNat (msg.length >>> 8 &&& 0xff))
      (ofNat (msg.length &&& 0xff)) = msg.length := by
    have h255 (n : ℕ) : n &&& 0xff = n % 256 := Nat.and_two_pow_sub_one_eq_mod n 8
    rw [readSize_eq, toNat_ofNat', toNat_ofNat', h255, h255, Nat.shiftRight_eq_div_pow]
    omega
  rw [cons_append, cons_append, cutPacket_of_le]
  · rw [hsize, take_left, drop_left]
  · rw [hsize, length_append]
    omega

/-- Messages that are not too long can be packed, and are the packets of the stream. -/
theorem packets_lpack {ms : List (List UInt8)} (hms : ∀ m ∈ ms, m.length < 0x10000) :
    ∃ fs, ms.mapM lpack = some fs ∧ packets fs.flatten = ms := by
  induction ms with
  | nil => exact ⟨[], rfl, rfl⟩
  | cons m ms ih =>
    obtain ⟨fs, hfs, hpackets⟩ := ih fun m' hm' => hms m' (mem_cons_of_mem m hm')
    obtain ⟨f, hf⟩ : ∃ f, lpack m = some f := ⟨_, if_neg (not_le.mpr (hms m mem_cons_self))⟩
    refine ⟨f :: fs, by simp [mapM_cons, hf, hfs], ?_⟩
    obtain ⟨hcuts, hrest⟩ := cuts_packets fs.flatten
    rw [hpackets] at hcuts
    rw [flatten_cons]
    exact (packets_eq (.cons (cutPacket_lpack hf _) hcuts) hrest).1

end Cut

/-! ### The data of one socket -/

/-- How the first bytes of a packet are kept. -/
inductive Kept (fd : ℕ) : Option Uncomplete → List UInt8 → Prop
  | nothing : Kept fd none []
  | header (b : UInt8) : Kept fd (some (headerOnly fd b)) [b]
  | body {a b header : UInt8} {buffer : List UInt8} :
      buffer.length < readSize a b →
      Kept fd (some ⟨⟨fd, readSize a b, buffer⟩, buffer.length, header⟩) (a :: b :: buffer)

/-- A complete packet. -/
def netPack (fd : ℕ) (f : List UInt8) : NetPack := ⟨fd, f.length, f⟩

/-- In the queue `q'` the bytes `r` are kept for the socket, and nothing has changed for the
others. -/
structure Keeps (q : NetQueue) (fd : ℕ) (r : List UInt8) (q' : NetQueue) : Prop where
  single : q'.Single
  kept : Kept fd (q'.find fd) r
  others : ∀ fd' ≠ fd, q'.find fd' = q.find fd'

section Data

variable {q : NetQueue} {fd : ℕ} {a b : UInt8} {p rest buffer : List UInt8} {uc : Uncomplete}

theorem Kept.cutPacket_eq_none {u : Option Uncomplete} (h : Kept fd u p) : cutPacket p = none := by
  cases h with
  | nothing => rfl
  | header b => rfl
  | body hlt => exact cutPacket_of_lt hlt

theorem Keeps.link (hq : q.Single) (hfind : q.find fd = none) (huc : uc.pack.id = fd)
    (hkept : Kept fd (some uc) p) : Keeps q fd p (q.link uc) where
  single := hq.link (by rw [huc]; exact hfind)
  kept := by rwa [NetQueue.find_link huc]
  others fd' hne := NetQueue.find_link_of_ne huc hne

theorem netPack_take (fd : ℕ) (h : readSize a b ≤ rest.length) :
    (⟨fd, readSize a b, rest.take (readSize a b)⟩ : NetPack) =
      netPack fd (rest.take (readSize a b)) := by
  rw [netPack, length_take, Nat.min_eq_left h]

/-- The data of one socket. -/
theorem pushMore_ok {fuel : ℕ} (hq : q.Single) (hfind : q.find fd = none) (hne : buffer ≠ [])
    (hfuel : buffer.length ≤ fuel) :
    ∃ q' fs r, pushMore fd fuel q buffer = .ok q' ∧ Cuts cutPacket buffer fs r ∧
      Keeps q fd r q' ∧ q'.contents = q.contents ++ fs.map (netPack fd) := by
  induction fuel generalizing q buffer with
  | zero => exact absurd (length_eq_zero_iff.mp (Nat.le_zero.mp hfuel)) hne
  | succ fuel ih =>
    match buffer with
    | [] => exact absurd rfl hne
    | [b] =>
      exact ⟨_, [], [b], rfl, .nil _, .link hq hfind rfl (.header b), by simp⟩
    | a :: b :: rest =>
      rw [pushMore]
      by_cases hlt : rest.length < readSize a b
      · rw [if_pos hlt]
        exact ⟨_, [], a :: b :: rest, rfl, .nil _, .link hq hfind rfl (.body hlt), by simp⟩
      · have hle := not_lt.mp hlt
        have hcut := cutPacket_of_le hle
        have hq' := hq.pushData (netPack fd (rest.take (readSize a b)))
        have hcontents := q.contents_pushData (netPack fd (rest.take (readSize a b)))
        rw [if_neg hlt]
        dsimp only
        rw [netPack_take fd hle]
        by_cases hmore : rest.drop (readSize a b) = []
        · rw [if_pos hmore]
          rw [hmore] at hcut
          refine ⟨_, [_], [], rfl, .cons hcut (.nil _), ⟨hq', ?_, fun fd' _ => ?_⟩, hcontents⟩
          · rw [NetQueue.find_pushData, hfind]
            exact .nothing
          · exact NetQueue.find_pushData ..
        · rw [if_neg hmore]
          have hlength : (rest.drop (readSize a b)).length ≤ fuel := by
            rw [length_drop]
            simp only [length_cons] at hfuel
            omega
          obtain ⟨q', fs, r, hok, hcuts, hkeeps, hall⟩ :=
            ih hq' ((NetQueue.find_pushData ..).trans hfind) hmore hlength
          refine ⟨q', _ :: fs, r, hok, .cons hcut hcuts,
            ⟨hkeeps.single, hkeeps.kept, fun fd' hne' => ?_⟩, ?_⟩
          · rw [hkeeps.others fd' hne', NetQueue.find_pushData]
          · rw [hall, hcontents, map_cons, append_assoc, singleton_append]

/-- What a result and the queue after it have for the gate. -/
inductive Yields (q : NetQueue) (fd : ℕ) (q' : NetQueue) : FilterResult → List (List UInt8) → Prop
  | nothing : q'.contents = q.contents → Yields q fd q' .nothing []
  | data (f : List UInt8) : q'.contents = q.contents → Yields q fd q' (.data (netPack fd f)) [f]
  | more {fs : List (List UInt8)} :
      q'.contents = q.contents ++ fs.map (netPack fd) → Yields q fd q' .more fs

theorem pushMore_after {f stream : List UInt8} (hq : q.Single) (hfind : q.find fd = none)
    (hcut : cutPacket stream = some (f, rest)) (hne : rest ≠ []) :
    ∃ q' fs r, pushMore fd rest.length (q.pushData (netPack fd f)) rest = .ok q' ∧
      Cuts cutPacket stream fs r ∧ Keeps q fd r q' ∧ Yields q fd q' .more fs := by
  obtain ⟨q', fs, r, hok, hcuts, hkeeps, hall⟩ := pushMore_ok (hq.pushData (netPack fd f))
    ((NetQueue.find_pushData ..).trans hfind) hne (le_refl _)
  refine ⟨q', f :: fs, r, hok, .cons hcut hcuts, ⟨hkeeps.single, hkeeps.kept, fun fd' hne' => ?_⟩,
    .more ?_⟩
  · rw [hkeeps.others fd' hne', NetQueue.find_pushData]
  · rw [hall, NetQueue.contents_pushData, map_cons, append_assoc, singleton_append]

theorem Keeps.refl (hq : q.Single) (hfind : q.find fd = none) : Keeps q fd [] q :=
  ⟨hq, by rw [hfind]; exact .nothing, fun _ _ => rfl⟩

theorem fillBody_ok (header : UInt8) (hq : q.Single) (hfind : q.find fd = none)
    (hp : p.length ≤ readSize a b) (buffer : List UInt8) :
    ∃ q' result fs r,
      fillBody q fd ⟨⟨fd, readSize a b, p⟩, p.length, header⟩ buffer = .ok (q', result) ∧
      Cuts cutPacket (a :: b :: (p ++ buffer)) fs r ∧ Keeps q fd r q' ∧
      Yields q fd q' result fs := by
  have hfill (bytes : List UInt8) :
      (⟨⟨fd, readSize a b, p⟩, p.length, header⟩ : Uncomplete).fill bytes =
        ⟨⟨fd, readSize a b, p ++ bytes⟩, (p ++ bytes).length, header⟩ := by
    rw [Uncomplete.fill, toNat_natCast, take_length, length_append, natCast_add]
  rw [fillBody]
  simp only [hfill, toNat_natCast]
  by_cases hlt : buffer.length < readSize a b - p.length
  · rw [if_pos hlt]
    have hbody : (p ++ buffer).length < readSize a b := by
      rw [length_append]
      omega
    exact ⟨_, _, [], _, rfl, .nil _, .link hq hfind rfl (.body hbody), .nothing rfl⟩
  · have hle : readSize a b ≤ (p ++ buffer).length := by
      rw [length_append]
      omega
    have hcut := cutPacket_of_le (a := a) (b := b) hle
    have htake : (p ++ buffer).take (readSize a b) =
        p ++ buffer.take (readSize a b - p.length) := by
      rw [take_append, take_of_length_le hp]
    have hdrop : (p ++ buffer).drop (readSize a b) = buffer.drop (readSize a b - p.length) := by
      rw [drop_append, drop_of_length_le hp, nil_append]
    have hpack := netPack_take fd hle
    rw [htake] at hcut hpack
    rw [hdrop] at hcut
    rw [if_neg hlt, hpack]
    by_cases hmore : buffer.drop (readSize a b - p.length) = []
    · rw [if_pos hmore]
      rw [hmore] at hcut
      exact ⟨q, _, [_], [], rfl, .cons hcut (.nil _), .refl hq hfind, .data _ rfl⟩
    · rw [if_neg hmore]
      obtain ⟨q', fs, r, hok, hcuts, hkeeps, hyields⟩ := pushMore_after hq hfind hcut hmore
      exact ⟨q', .more, fs, r, by rw [hok]; rfl, hcuts, hkeeps, hyields⟩

variable {q : Option NetQueue} (hq : (q.getD .create).Single)
include hq

theorem filterFresh_ok (hfind : (q.getD .create).find fd = none) (hne : buffer ≠ []) :
    ∃ q' result fs r, filterFresh q fd buffer = .ok (q', result) ∧
      Cuts cutPacket buffer fs r ∧ Keeps (q.getD .create) fd r (q'.getD .create) ∧
      Yields (q.getD .create) fd (q'.getD .create) result fs := by
  match buffer with
  | [] => exact absurd rfl hne
  | [b] =>
    exact ⟨_, _, [], _, rfl, .nil _, .link hq hfind rfl (.header b), .nothing rfl⟩
  | a :: b :: rest =>
    rw [filterFresh]
    by_cases hlt : rest.length < readSize a b
    · rw [if_pos hlt]
      exact ⟨_, _, [], _, rfl, .nil _, .link hq hfind rfl (.body hlt), .nothing rfl⟩
    · have hle := not_lt.mp hlt
      have hcut := cutPacket_of_le hle
      rw [if_neg hlt]
      by_cases heq : rest.length = readSize a b
      · rw [if_pos heq]
        rw [← heq, take_length, drop_length] at hcut
        exact ⟨q, _, [rest], [], rfl, .cons hcut (.nil _), .refl hq hfind, .data rest rfl⟩
      · have hmore : rest.drop (readSize a b) ≠ [] := by
          rw [Ne, drop_eq_nil_iff]
          omega
        rw [if_neg heq]
        dsimp only
        rw [netPack_take fd hle]
        obtain ⟨q', fs, r, hok, hcuts, hkeeps, hyields⟩ := pushMore_after hq hfind hcut hmore
        exact ⟨some q', .more, fs, r, by rw [hok]; rfl, hcuts, hkeeps, hyields⟩

/-- The data of a socket is cut behind the bytes that were kept for it. -/
theorem filterData_ok (hkept : Kept fd ((q.getD .create).find fd) p) (hne : buffer ≠ []) :
    ∃ q' result fs r, filterData q fd buffer = .ok (q', result) ∧
      Cuts cutPacket (p ++ buffer) fs r ∧ Keeps (q.getD .create) fd r (q'.getD .create) ∧
      Yields (q.getD .create) fd (q'.getD .create) result fs := by
  have hunlink : ((q.getD .create).unlink fd).Single := Chains.Single.unlink hq fd
  have hgone : ((q.getD .create).unlink fd).find fd = none := Chains.find_unlink_self hq
  -- once the length is complete
  have hbody {a b : UInt8} (header : UInt8) {p : List UInt8} (hp : p.length ≤ readSize a b)
      (buffer : List UInt8) : ∃ q' result fs r,
        fillBody ((q.getD .create).unlink fd) fd ⟨⟨fd, readSize a b, p⟩, p.length, header⟩ buffer =
          .ok (q', result) ∧
        Cuts cutPacket (a :: b :: (p ++ buffer)) fs r ∧ Keeps (q.getD .create) fd r q' ∧
        Yields (q.getD .create) fd q' result fs := by
    obtain ⟨q', result, fs, r, hok, hcuts, hkeeps, hyields⟩ :=
      fillBody_ok header hunlink hgone hp buffer
    refine ⟨q', result, fs, r, hok, hcuts, ⟨hkeeps.single, hkeeps.kept, fun fd' hne' => ?_⟩, ?_⟩
    · rw [hkeeps.others fd' hne', NetQueue.find_unlink_of_ne hne']
    · cases hyields with
      | nothing h => exact .nothing h
      | data f h => exact .data f h
      | more h => exact .more h
  unfold filterData
  generalize hu : (q.getD .create).find fd = u at hkept
  cases hkept with
  | nothing => exact filterFresh_ok hq hu hne
  | header a =>
    obtain ⟨b, rest, rfl⟩ := exists_cons_of_ne_nil hne
    obtain ⟨q', result, fs, r, hok, hcuts, hkeeps, hyields⟩ :=
      hbody (b := b) a (p := []) (Nat.zero_le _) rest
    have hread : readHeader (headerOnly fd a) (b :: rest) =
        .ok (⟨⟨fd, readSize a b, []⟩, ([] : List UInt8).length, a⟩, rest) := rfl
    refine ⟨some q', result, fs, r, ?_, hcuts, hkeeps, hyields⟩
    dsimp only
    rw [hread]
    exact congrArg (Except.map fun x => (some x.1, x.2)) hok
  | @body a b header p hlt =>
    obtain ⟨q', result, fs, r, hok, hcuts, hkeeps, hyields⟩ := hbody header hlt.le buffer
    have hread : readHeader ⟨⟨fd, readSize a b, p⟩, p.length, header⟩ buffer =
        .ok (⟨⟨fd, readSize a b, p⟩, p.length, header⟩, buffer) :=
      if_neg (not_lt.mpr (natCast_nonneg _))
    refine ⟨some q', result, fs, r, ?_, hcuts, hkeeps, hyields⟩
    dsimp only
    rw [hread]
    exact congrArg (Except.map fun x => (some x.1, x.2)) hok

end Data

/-! ### The gate -/

theorem message_netPack (fd : ℕ) (f : List UInt8) : (netPack fd f).message = f := take_length ..

namespace Gate

variable {g : Gate} {msgs : List NetMessage} {fd : ℕ}

/-- The queue, if there is one. -/
def table (g : Gate) : NetQueue := g.queue.getD .create

/-- The packets of a result are delivered, and the queue is empty after it. -/
theorem deliver_eq {q : NetQueue} {q' : Option NetQueue} {result : FilterResult}
    {fs : List (List UInt8)} (hq : q.contents = [])
    (hyields : Yields q fd (q'.getD .create) result fs) :
    (g.deliver q' result).log = g.log ++ fs.map (fun f => (fd, f)) ∧
      (g.deliver q' result).table.contents = [] ∧
      (g.deliver q' result).table.hash = (q'.getD .create).hash := by
  cases hyields with
  | nothing h => exact ⟨(append_nil _).symm, h.trans hq, rfl⟩
  | data f h =>
    refine ⟨?_, h.trans hq, rfl⟩
    rw [deliver, message_netPack]
    rfl
  | more h =>
    rw [hq, nil_append] at h
    cases q' with
    | none =>
      -- there is nothing in a queue that was not made
      have hnil : fs = [] := map_eq_nil_iff.mp h.symm
      rw [hnil]
      exact ⟨(append_nil _).symm, rfl, rfl⟩
    | some q' =>
      obtain ⟨hpopped, hempty, hhash⟩ := NetQueue.popAll_eq q'.contents_length_le_cap
      refine ⟨?_, hempty, hhash⟩
      have hcontents : q'.contents = fs.map (netPack fd) := h
      rw [deliver]
      dsimp only
      rw [hpopped, hcontents, map_map]
      refine congrArg (g.log ++ ·) (map_congr_left fun f _ => ?_)
      exact congrArg (Prod.mk fd) (message_netPack fd f)

/-- The packets of the sockets after more packets of one of them. -/
theorem delivered_append {g' : Gate} {fs : List (List UInt8)} (fd' : ℕ)
    (hlog : g'.log = g.log ++ fs.map (fun f => (fd, f))) :
    g'.delivered fd' = g.delivered fd' ++ if fd = fd' then fs else [] := by
  rw [delivered, delivered, hlog, filter_append, map_append]
  congr 1
  split_ifs with hfd
  · rw [filter_eq_self.mpr (by simp [hfd]), map_map]
    exact map_id fs
  · rw [filter_eq_nil_iff.mpr (by simp [hfd]), map_nil]

/-- What holds after some messages: every socket has got the packets of its streams, and the bytes
behind the last one are kept for it. -/
structure Tracks (g : Gate) (msgs : List NetMessage) : Prop where
  single : g.table.Single
  empty : g.table.contents = []
  kept : ∀ fd, Kept fd (g.table.find fd) (leftover (streams fd msgs).2)
  delivered : ∀ fd, g.delivered fd = (streams fd msgs).1.flatMap packets ++
    packets (streams fd msgs).2

theorem tracks_create : Tracks create [] where
  single _ := Nat.zero_le 1
  empty := rfl
  kept _ := .nothing
  delivered _ := rfl

theorem streams_concat (fd : ℕ) (msgs : List NetMessage) (m : NetMessage) :
    streams fd (msgs ++ [m]) = streamStep fd (streams fd msgs) m := by
  rw [streams, foldl_append]
  rfl

section

variable (hg : g.Tracks msgs)
include hg

theorem Tracks.data {buffer : List UInt8} (hne : buffer ≠ []) :
    ∃ g', g.step (.data fd buffer) = .ok g' ∧ g'.Tracks (msgs ++ [.data fd buffer]) := by
  obtain ⟨q', result, fs, r, hok, hcuts, hkeeps, hyields⟩ :=
    filterData_ok (q := g.queue) hg.single (hg.kept fd) hne
  obtain ⟨hlog, hempty, hhash⟩ := deliver_eq (g := g) hg.empty hyields
  have hfind (fd' : ℕ) : (g.deliver q' result).table.find fd' = (q'.getD .create).find fd' := by
    rw [NetQueue.find, hhash, NetQueue.find]
  have hr : cutPacket r = none := hkeeps.kept.cutPacket_eq_none
  obtain ⟨hpackets, hleft⟩ := packets_append hcuts hr
  refine ⟨g.deliver q' result, by rw [step, lfilter, hok]; rfl, ?_, hempty, fun fd' => ?_,
    fun fd' => ?_⟩
  · rw [NetQueue.Single, hhash]
    exact hkeeps.single
  · rw [streams_concat, hfind, streamStep]
    split_ifs with hfd
    · subst hfd
      rw [hleft]
      exact hkeeps.kept
    · rw [hkeeps.others fd' fun h => hfd h.symm]
      exact hg.kept fd'
  · rw [delivered_append fd' hlog, streams_concat, streamStep, hg.delivered fd']
    split_ifs with hfd
    · subst hfd
      rw [hpackets, append_assoc]
    · rw [append_nil]

/-- The bytes that were kept for the socket are gone, and its next stream begins. -/
theorem Tracks.close {m : NetMessage}
    (hm : ∀ fd' s, streamStep fd' s m = if fd = fd' then (s.1 ++ [s.2], []) else s) :
    Tracks ⟨g.queue.map (closeUncomplete · fd), g.log⟩ (msgs ++ [m]) := by
  have hdelivered (fd' : ℕ) : g.delivered fd' = (streams fd' (msgs ++ [m])).1.flatMap packets ++
      packets (streams fd' (msgs ++ [m])).2 := by
    rw [streams_concat, hm, hg.delivered fd']
    split_ifs with hfd
    · rw [flatMap_append, flatMap_singleton]
      exact (append_nil _).symm
    · rfl
  cases hqueue : g.queue with
  | none =>
    have htable : g.table = .create := by rw [table, hqueue]; rfl
    refine ⟨fun _ => Nat.zero_le 1, rfl, fun fd' => ?_, hdelivered⟩
    have hkept := hg.kept fd'
    rw [htable] at hkept
    rw [streams_concat, hm]
    split_ifs with hfd
    · exact .nothing
    · exact hkept
  | some q =>
    have htable : g.table = q := by rw [table, hqueue]; rfl
    have hsingle := hg.single
    rw [htable] at hsingle
    refine ⟨Chains.Single.unlink hsingle fd, ?_, fun fd' => ?_, hdelivered⟩
    · have hempty := hg.empty
      rwa [htable] at hempty
    · have hkept := hg.kept fd'
      rw [htable] at hkept
      rw [streams_concat, hm]
      split_ifs with hfd
      · subst hfd
        have hgone : (q.unlink fd).find fd = none := Chains.find_unlink_self hsingle
        change Kept fd ((q.unlink fd).find fd) []
        rw [hgone]
        exact .nothing
      · change Kept fd' ((q.unlink fd).find fd') _
        rwa [NetQueue.find_unlink_of_ne fun h => hfd h.symm]

theorem Tracks.step {m : NetMessage} (hm : ∀ fd buffer, m = .data fd buffer → buffer ≠ []) :
    ∃ g', g.step m = .ok g' ∧ g'.Tracks (msgs ++ [m]) := by
  have hsame (h : ∀ fd s, streamStep fd s m = s) : g.Tracks (msgs ++ [m]) := by
    refine ⟨hg.single, hg.empty, fun fd => ?_, fun fd => ?_⟩
    · rw [streams_concat, h]
      exact hg.kept fd
    · rw [streams_concat, h]
      exact hg.delivered fd
  cases m with
  | data fd buffer => exact hg.data (hm fd buffer rfl)
  | close fd => exact ⟨_, rfl, hg.close fun _ _ => rfl⟩
  | error fd => exact ⟨_, rfl, hg.close fun _ _ => rfl⟩
  | connect fd => exact ⟨g, rfl, hsame fun _ _ => rfl⟩
  | accept fd ud => exact ⟨g, rfl, hsame fun _ _ => rfl⟩
  | warning fd ud => exact ⟨g, rfl, hsame fun _ _ => rfl⟩

theorem tracks_foldlM {rest : List NetMessage}
    (hne : ∀ fd buffer, .data fd buffer ∈ rest → buffer ≠ []) :
    ∃ g', rest.foldlM Gate.step g = .ok g' ∧ g'.Tracks (msgs ++ rest) := by
  induction rest generalizing g msgs with
  | nil =>
    rw [append_nil]
    exact ⟨g, rfl, hg⟩
  | cons m rest ih =>
    obtain ⟨g₁, hstep, hg₁⟩ := hg.step (m := m)
      fun fd buffer hm => hne fd buffer (hm ▸ mem_cons_self)
    obtain ⟨g₂, hrest, hg₂⟩ := ih hg₁ fun fd buffer h => hne fd buffer (mem_cons_of_mem m h)
    refine ⟨g₂, ?_, ?_⟩
    · rw [foldlM_cons, hstep]
      exact hrest
    · rw [append_assoc, singleton_append] at hg₂
      exact hg₂

end

theorem bytes_of_kept {u : Uncomplete} {p : List UInt8} (h : Kept fd (some u) p) : u.bytes = p := by
  cases h with
  | header b => rfl
  | @body a b header buffer hlt =>
    have hhigh : UInt8.ofNat (readSize a b >>> 8) = a := by
      apply toNat.inj
      have hb := b.toNat_lt
      have ha := a.toNat_lt
      rw [toNat_ofNat', readSize_eq, Nat.shiftRight_eq_div_pow]
      omega
    have hlow : UInt8.ofNat (readSize a b) = b := by
      apply toNat.inj
      have hb := b.toNat_lt
      rw [toNat_ofNat', readSize_eq]
      omega
    rw [Uncomplete.bytes, if_neg (not_lt.mpr (natCast_nonneg _)), hhigh, hlow]

theorem Tracks.kept_eq (hg : g.Tracks msgs) (fd : ℕ) :
    g.kept fd = leftover (streams fd msgs).2 := by
  have hkept := hg.kept fd
  cases hfind : (g.queue.getD .create).find fd with
  | none =>
    rw [Gate.table, hfind] at hkept
    simp only [Gate.kept, hfind]
    generalize leftover (streams fd msgs).2 = p at hkept
    cases hkept
    rfl
  | some u =>
    rw [Gate.table, hfind] at hkept
    simp only [Gate.kept, hfind]
    exact bytes_of_kept hkept

/-- Whatever the pieces and the order in which the streams of the sockets arrive, no function fails,
every socket gets the complete packets of its streams, in order, and the bytes behind the last one
are kept for it until it is closed. Packed messages are delivered as they were. -/
theorem delivered_of_messages (msgs : List NetMessage)
    (hne : ∀ fd buffer, .data fd buffer ∈ msgs → buffer ≠ []) :
    ∃ g, msgs.foldlM Gate.step create = .ok g ∧
      (∀ fd, g.delivered fd = (streams fd msgs).1.flatMap packets ++ packets (streams fd msgs).2 ∧
        g.kept fd = leftover (streams fd msgs).2) ∧
      ∀ fd ms, (∀ m ∈ ms, m.length < 0x10000) → ∃ fs, ms.mapM lpack = some fs ∧
        (streams fd msgs = ([], fs.flatten) → g.delivered fd = ms) := by
  obtain ⟨g, hok, hg⟩ := tracks_foldlM tracks_create hne
  rw [List.nil_append] at hg
  refine ⟨g, hok, fun fd => ⟨hg.delivered fd, hg.kept_eq fd⟩, fun fd ms hms => ?_⟩
  obtain ⟨fs, hfs, hpackets⟩ := packets_lpack hms
  refine ⟨fs, hfs, fun hstream => ?_⟩
  rw [hg.delivered fd, hstream]
  exact hpackets

/-- The data of two sockets in the same chain. -/
def mixedMessages : List NetMessage :=
  [.data 5 [0], .data 4100 [0, 2, 9], .data 5 [1, 7, 0, 0], .data 4100 [8, 0], .close 5]

theorem delivered_of_messages_mixed :
    hashFd 5 = hashFd 4100 ∧ ∃ g, mixedMessages.foldlM Gate.step create = .ok g ∧
      g.delivered 5 = [[7], []] ∧ g.delivered 4100 = [[9, 8]] ∧ g.kept 4100 = [0] := by
  have hne : ∀ fd buffer, .data fd buffer ∈ mixedMessages → buffer ≠ [] := by
    intro fd buffer hmem hnil
    subst hnil
    simp [mixedMessages] at hmem
  obtain ⟨g, hok, hall, -⟩ := delivered_of_messages mixedMessages hne
  refine ⟨by decide, g, hok, ?_, ?_, ?_⟩
  · rw [(hall 5).1]
    decide
  · rw [(hall 4100).1]
    decide
  · rw [(hall 4100).2]
    decide

end Gate

end Uboss.Lib
