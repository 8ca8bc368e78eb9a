import Mathlib.Data.List.Basic

/-!
# Cutting a stream into frames

A cutter looks at the front of a stream and either takes a frame off it or asks for more. When
a frame, once complete, does not depend on what follows it, the frames of a stream do not
depend on the pieces in which the stream arrives.

## Main definitions

* `Cuts` — taking any number of frames off a stream
* `PrefixStable` — a complete frame does not depend on what follows it
* `frames` — the frames of a stream, and what is left of it
* `Decodes` — a decoder has taken a stream, or has stopped at a frame that is not good

## Main results

* `Cuts.unique` — a stream has one sequence of frames
* `cuts_flatten_map` — the frames of a concatenation of encoded messages
* `Decodes.foldlM` — a decoder that is right for one piece is right for any number of them
* `Decodes.eq_ok` — what such a decoder has put out
* `Decodes.exists_ok_iff` — which streams a decoder takes to their end
-/

namespace Uboss.Math

open List

variable {α φ σ ε ι : Type*}

section Cuts

variable (cut : List α → Option (φ × List α))

/-- `Cuts cut xs fs r`: the frames `fs` are taken off `xs` one after the other, which leaves
`r`. -/
inductive Cuts : List α → List φ → List α → Prop
  | nil (xs : List α) : Cuts xs [] xs
  | cons {xs ys r : List α} {f : φ} {fs : List φ} :
      cut xs = some (f, ys) → Cuts ys fs r → Cuts xs (f :: fs) r

/-- A complete frame does not depend on what follows it. -/
def PrefixStable : Prop := ∀ ⦃xs ys : List α⦄ ⦃f : φ⦄, cut xs = some (f, ys) →
    ∀ zs, cut (xs ++ zs) = some (f, ys ++ zs)

end Cuts

variable {cut : List α → Option (φ × List α)} {xs ys r r' : List α} {fs gs : List φ}

namespace Cuts

theorem append_frames (h : Cuts cut xs fs r) (h' : Cuts cut r gs r') :
    Cuts cut xs (fs ++ gs) r' := by
  induction h with
  | nil => exact h'
  | cons hcut _ ih => exact .cons hcut (ih h')

theorem append_stream (hstable : PrefixStable cut) (h : Cuts cut xs fs r) (ys : List α) :
    Cuts cut (xs ++ ys) fs (r ++ ys) := by
  induction h with
  | nil => exact .nil _
  | cons hcut _ ih => exact .cons (hstable hcut ys) ih

theorem length_le (hshort : ∀ xs f ys, cut xs = some (f, ys) → ys.length ≤ xs.length)
    (h : Cuts cut xs fs r) : r.length ≤ xs.length := by
  induction h with
  | nil => exact Nat.le_refl _
  | cons hcut _ ih => exact Nat.le_trans ih (hshort _ _ _ hcut)

/-- Cutting until no frame is complete gives one result. -/
theorem unique (h : Cuts cut xs fs r) (h' : Cuts cut xs gs r') (hr : cut r = none)
    (hr' : cut r' = none) : fs = gs ∧ r = r' := by
  induction h generalizing gs with
  | nil =>
    cases h' with
    | nil => exact ⟨rfl, rfl⟩
    | cons hcut _ => simp [hr] at hcut
  | cons hcut _ ih =>
    cases h' with
    | nil => simp [hr'] at hcut
    | cons hcut' htail =>
      -- both sides took the same first frame
      obtain ⟨rfl, rfl⟩ : _ ∧ _ := by simpa [hcut] using hcut'
      obtain ⟨rfl, rfl⟩ := ih htail hr
      exact ⟨rfl, rfl⟩

/-- The frames that were taken off first are the first frames of the stream. -/
theorem isPrefix (h : Cuts cut xs fs r) (h' : Cuts cut xs gs r') (hr : cut r = none) :
    gs <+: fs := by
  induction h' generalizing fs with
  | nil => exact List.nil_prefix
  | cons hcut _ ih =>
    cases h with
    | nil => simp [hr] at hcut
    | cons hcut' htail =>
      obtain ⟨rfl, rfl⟩ : _ ∧ _ := by simpa [hcut] using hcut'
      exact prefix_cons_inj _ |>.mpr (ih htail)

end Cuts

/-- Take at most `n` frames off a stream. -/
def frames (cut : List α → Option (φ × List α)) : ℕ → List α → List φ × List α
  | 0, xs => ([], xs)
  | n + 1, xs =>
    match cut xs with
    | none => ([], xs)
    | some (f, ys) => (f :: (frames cut n ys).1, (frames cut n ys).2)

/-- If a frame has a length, all frames of a stream are taken off. -/
theorem cuts_frames (hshort : ∀ xs f ys, cut xs = some (f, ys) → ys.length < xs.length) {n : ℕ}
    (hn : xs.length ≤ n) :
    Cuts cut xs (frames cut n xs).1 (frames cut n xs).2 ∧ cut (frames cut n xs).2 = none := by
  induction n generalizing xs with
  | zero =>
    have hxs : xs = [] := length_eq_zero_iff.mp (Nat.le_zero.mp hn)
    refine ⟨.nil xs, ?_⟩
    cases hcut : cut xs with
    | none => exact hcut
    | some x =>
      have hlt := hshort xs x.1 x.2 hcut
      rw [hxs] at hlt
      exact absurd hlt (Nat.not_lt_zero _)
  | succ n ih =>
    rw [frames]
    split
    next hcut => exact ⟨.nil xs, hcut⟩
    next f ys hcut =>
      have hlt := hshort xs f ys hcut
      have hys : ys.length ≤ n := by omega
      obtain ⟨hcuts, hrest⟩ := ih hys
      exact ⟨.cons hcut hcuts, hrest⟩

/-- The frames of a concatenation of encoded messages are those of the messages. -/
theorem cuts_flatten_map {encode : ι → List α} {frame : ι → φ} {ms : List ι}
    (hencode : ∀ m ∈ ms, ∀ rest, cut (encode m ++ rest) = some (frame m, rest)) :
    Cuts cut (ms.map encode).flatten (ms.map frame) [] := by
  induction ms with
  | nil => exact .nil _
  | cons m ms ih =>
    rw [map_cons, flatten_cons, map_cons]
    apply Cuts.cons (hencode m (mem_cons_self ..) _)
    apply ih
    intro n hn
    exact hencode n (mem_cons_of_mem m hn)

/-! ### Decoders

A decoder takes a stream in pieces, and stops at a frame that is not good. `Represents s out p` says
that in its state `s` it has put out the frames `out` and keeps the bytes `p` of the stream. -/

section Decodes

variable (cut) (good : φ → Prop) (Represents : σ → List φ → List α → Prop) (fault : ε)

/-- The decoder, which had put out `out`, has taken `stream`: it has put out its frames and
represents the rest, or there is a frame that is not good, and it has stopped. -/
def Decodes (out : List φ) (stream : List α) (result : Except ε σ) : Prop :=
  ∃ fs r, Cuts cut stream fs r ∧
    ((∃ s, result = .ok s ∧ Represents s (out ++ fs) r ∧ ∀ f ∈ fs, good f) ∨
      result = .error fault ∧ ∃ f ∈ fs, ¬ good f)

end Decodes

namespace Decodes

variable {good : φ → Prop} {Represents : σ → List φ → List α → Prop} {fault : ε}
  {out : List φ} {s : σ} {f : φ} {result : Except ε σ}

theorem pure (hs : Represents s out xs) : Decodes cut good Represents fault out xs (.ok s) :=
  ⟨[], xs, .nil xs, .inl ⟨s, rfl, by simpa using hs, by simp⟩⟩

/-- The first frame is put out. -/
theorem cons (hcut : cut xs = some (f, ys)) (hf : good f)
    (h : Decodes cut good Represents fault (out ++ [f]) ys result) :
    Decodes cut good Represents fault out xs result := by
  obtain ⟨fs, r, hcuts, hend⟩ := h
  refine ⟨f :: fs, r, .cons hcut hcuts, ?_⟩
  rcases hend with ⟨s, hs, hrep, hgood⟩ | ⟨hs, g, hg, hbad⟩
  · exact .inl ⟨s, hs, by simpa using hrep, forall_mem_cons.mpr ⟨hf, hgood⟩⟩
  · exact .inr ⟨hs, g, mem_cons_of_mem f hg, hbad⟩

/-- The first frame is not good. -/
theorem stop (hcut : cut xs = some (f, ys)) (hf : ¬ good f) :
    Decodes cut good Represents fault out xs (.error fault) :=
  ⟨[f], ys, .cons hcut (.nil _), .inr ⟨rfl, f, mem_singleton_self f, hf⟩⟩

theorem bind {next : σ → Except ε σ} (hstable : PrefixStable cut)
    (h : Decodes cut good Represents fault out xs result)
    (hnext : ∀ s out p, Represents s out p →
      Decodes cut good Represents fault out (p ++ ys) (next s)) :
    Decodes cut good Represents fault out (xs ++ ys) (result >>= next) := by
  obtain ⟨fs, r, hcuts, hrest⟩ := h
  have hcuts' := hcuts.append_stream hstable ys
  rcases hrest with ⟨s, rfl, hs, hgood⟩ | ⟨rfl, hbad⟩
  · obtain ⟨gs, r', hcuts'', hrest'⟩ := hnext s _ r hs
    refine ⟨fs ++ gs, r', hcuts'.append_frames hcuts'', ?_⟩
    rcases hrest' with ⟨t, ht, hrep, hgood'⟩ | ⟨ht, f, hf, hbad⟩
    · refine .inl ⟨t, ht, by simpa using hrep, fun f hf => ?_⟩
      exact (mem_append.mp hf).elim (hgood f) (hgood' f)
    · exact .inr ⟨ht, f, mem_append_right fs hf, hbad⟩
  · exact ⟨fs, _, hcuts', .inr ⟨rfl, hbad⟩⟩

/-- A decoder that is right for one non-empty piece is right for any number of them. -/
theorem foldlM {feed : σ → List α → Except ε σ} (hstable : PrefixStable cut)
    (hfeed : ∀ s out p c, c ≠ [] → Represents s out p →
      Decodes cut good Represents fault out (p ++ c) (feed s c))
    {chunks : List (List α)} (hchunks : ∀ c ∈ chunks, c ≠ []) {p : List α}
    (hs : Represents s out p) :
    Decodes cut good Represents fault out (p ++ chunks.flatten) (chunks.foldlM feed s) := by
  induction chunks generalizing s out p with
  | nil =>
    rw [flatten_nil, append_nil, foldlM_nil]
    exact pure hs
  | cons c chunks ih =>
    rw [flatten_cons, ← append_assoc, foldlM_cons]
    apply bind hstable (hfeed s out p c (hchunks c (mem_cons_self ..)) hs)
    intro s' out' p' hs'
    exact ih (fun d hd => hchunks d (mem_cons_of_mem c hd)) hs'

section

variable (h : Decodes cut good Represents fault out xs result)
include h

theorem error_eq {e : ε} (herr : result = .error e) : e = fault := by
  obtain ⟨fs, r, -, ⟨s, hok, -⟩ | ⟨hfault, -⟩⟩ := h
  · cases hok.symm.trans herr
  · exact Except.error.inj (herr.symm.trans hfault)

variable (hrep : ∀ s out p, Represents s out p → cut p = none)
include hrep

/-- Once the frames of the stream are known and good, so is what the decoder has put out. -/
theorem eq_ok (hcuts : Cuts cut xs fs r) (hr : cut r = none) (hgood : ∀ f ∈ fs, good f) :
    ∃ s, result = .ok s ∧ Represents s (out ++ fs) r := by
  obtain ⟨gs, r', hcuts', ⟨s, rfl, hs, -⟩ | ⟨rfl, f, hf, hbad⟩⟩ := h
  · obtain ⟨rfl, rfl⟩ := hcuts.unique hcuts' hr (hrep s _ r' hs)
    exact ⟨s, rfl, hs⟩
  · exact absurd (hgood f ((hcuts.isPrefix hcuts' hr).subset hf)) hbad

/-- The decoder comes to the end of a stream if and only if all its frames are good. -/
theorem exists_ok_iff : (∃ s, result = .ok s) ↔ ∀ fs r, Cuts cut xs fs r → ∀ f ∈ fs, good f := by
  obtain ⟨fs, r, hcuts, ⟨s, rfl, hs, hgood⟩ | ⟨rfl, f, hf, hbad⟩⟩ := h
  · refine iff_of_true ⟨s, rfl⟩ fun gs r' hcuts' f hf => ?_
    exact hgood f ((hcuts.isPrefix hcuts' (hrep s _ r hs)).subset hf)
  · constructor
    · rintro ⟨s, hs⟩
      cases hs
    · exact fun hall => absurd (hall fs r hcuts f hf) hbad

end

end Decodes

end Uboss.Math
