import Uboss.Module.HarborEffect

/-!
# Registered names

A name goes through four forms: `globalname` of `manager.lua` admits up to 16 bytes, `REGISTER` puts
the name behind `N `, `harbor_command` copies it into an array of 16 bytes, and `uboss_sendname`
does the same with the name of a destination. They agree on all names but the longest ones:
`harbor_command` does not take a name of 16 bytes.
-/

namespace Uboss.Module

open Math List

/-- The names that `uboss.register` and `uboss.name` take as global ones. What `tonumber` reads as a
number is not admitted, either; nothing below depends on it. -/
structure Admissible (name : List UInt8) : Prop where
  length_pos : 0 < name.length
  length_le : name.length ≤ 16
  head : name.head? ≠ some ':'.toUInt8 ∧ name.head? ≠ some '.'.toUInt8
  zero_notMem : 0 ∉ name

/-- The command that `harbor.REGISTER` sends. -/
def registerText (name : List UInt8) : List UInt8 := text "N " ++ name

/-- No node of a table is found by the name and by another one. -/
def Unshared (name : List UInt8) : Prop := ∀ name', Admissible name' → name' ≠ name →
    ∀ node : KeyValue NodeMsg, ¬ (node.matches (copyName name) ∧ node.matches (copyName name'))

section Names

variable {name : List UInt8}

/-- Both arrays are the same, and the name is read back from them. -/
theorem Admissible.copyName_eq_commandName (hname : Admissible name) :
    copyName name = commandName name :=
  copyName_eq hname.zero_notMem

theorem Admissible.string_copyName (hname : Admissible name) : (copyName name).string = name := by
  rw [copyName_eq hname.zero_notMem]
  exact string_ofBytes hname.length_le hname.zero_notMem

theorem Admissible.unshared (hname : Admissible name) : Unshared name := by
  intro name' hname' hne node ⟨hmatch, hmatch'⟩
  have hkey := (matches_iff.mp hmatch).2
  have hkey' := (matches_iff.mp hmatch').2
  rw [hname.string_copyName] at hkey
  rw [hname'.string_copyName] at hkey'
  exact hne (hkey'.symm.trans hkey)

theorem parseCommand_registerText (name : List UInt8) : parseCommand (registerText name) =
      if name.length = 0 ∨ globalnameLength ≤ name.length then .invalidName
      else .name (commandName name) := by
  have htext : registerText name = 'N'.toUInt8 :: ' '.toUInt8 :: name := rfl
  rw [htext, parseCommand, if_pos rfl]
  simp only [length_cons, drop_succ_cons, drop_zero]
  refine if_congr (or_congr_left ?_) rfl rfl
  omega

end Names

namespace HarborNode

variable {h h' : HarborNode} {a : HarborAct} {i : Fin remoteMax} {refused : List HarborCall → Bool}
  {name : List UInt8} {handle : UInt32}

/-- `hash_search` finds the handle. -/
def Finds (h : HarborNode) (name : List UInt8) (handle : UInt32) : Prop :=
  ∃ node, hashSearch h.map (copyName name) = some node ∧ node.value = handle

/-- The name stands for the handle: this is what `hash_search` finds, and a message to the name, as
`uboss_sendname` makes it, is treated like one to the handle. -/
structure Resolves (refused : List HarborCall → Bool) (h : HarborNode) (name : List UInt8)
    (handle : UInt32) : Prop where
  finds : h.Finds name handle
  sent : ∀ source type session data,
    h.mainloop refused (.remote source (copyName name) 0 type session data) =
      h.mainloop refused (.remote source (copyName name) handle type session data)

theorem Finds.resolves (hfinds : h.Finds name handle) (hhandle : handle ≠ 0) :
    h.Resolves refused name handle := by
  refine ⟨hfinds, fun source type session data => ?_⟩
  obtain ⟨node, hsearch, hvalue⟩ := hfinds
  have hname : h.Addressed (copyName name) 0 handle := by
    refine ⟨hhandle, .inr ⟨rfl, ?_⟩⟩
    rw [nameValue, hsearch]
    exact hvalue
  have hdirect : h.Addressed (copyName name) handle handle := ⟨hhandle, .inl rfl⟩
  rw [mainloop, mainloop, remoteMessage_eq hname, remoteMessage_eq hdirect]

/-! ### The table along a run -/

theorem Moves.map_eq (hmoves : Moves i h h') : h'.map = h.map := by
  refine hmoves.invariant (P := fun h' => h'.map = h.map) rfl ?_
  intro h₁ h₂ hmove heq
  cases hmove <;> exact heq

theorem Effect.map_cases (heffect : Effect h a h') : h'.map = h.map ∨
    (∃ msg source name, a = .mainloop (.harbor msg source) ∧ parseCommand msg = .name name ∧
      h'.map = (h.bound name source).map) ∨
    (∃ name m, h'.map = (h.awaiting name m).map) ∨ h'.released = true := by
  cases heffect with
  | data _ hmoves => exact .inl (hmoves.map_eq (h := h.alloc))
  | bind hmsg _ | bindDrop hmsg _ _ _ | bindLocal hmsg _ _ _ _ | bindWait hmsg _ _ _ _
  | bindSend hmsg _ _ => exact .inr (.inl ⟨_, _, _, rfl, hmsg, rfl⟩)
  | query _ => exact .inr (.inr (.inl ⟨_, _, rfl⟩))
  | release => exact .inr (.inr (.inr rfl))
  | _ => exact .inl rfl

/-- A step that does not bind the name. -/
def Spares (name : List UInt8) (_ : HarborNode) : HarborAct → Prop
  | .mainloop (.harbor msg _) => ∀ name', parseCommand msg = .name name' → name'.string ≠ name
  | _ => True

theorem Finds.bound (hname : Admissible name) (h : HarborNode) (handle : UInt32) :
    (h.bound (commandName name) handle).Finds name handle := by
  rw [← hname.copyName_eq_commandName]
  exact ⟨_, hashSearch_hashUpdate_self h.map fun _ => ⟨rfl, rfl⟩, rfl⟩

/-- Messages that wait for a name do not change its handle, or the one of another name. -/
theorem Finds.awaiting (hfinds : h.Finds name handle) (name' : GlobalName) (m : NodeMsg) :
    (h.awaiting name' m).Finds name handle := by
  obtain ⟨node, hsearch, hvalue⟩ := hfinds
  by_cases hsame : (copyName name).Same name'
  · have hself : hashSearch (h.awaiting name' m).map name' = some _ :=
      hashSearch_hashUpdate_self h.map fun _ => ⟨rfl, rfl⟩
    rw [← hashSearch_congr hsame, ← hashSearch_congr hsame, hsearch] at hself
    exact ⟨_, hself, hvalue⟩
  · have hother : hashSearch (h.awaiting name' m).map (copyName name) = _ :=
      hashSearch_hashUpdate_of_ne h.map (fun _ => ⟨rfl, rfl⟩)
        fun hsame' => hsame ⟨hsame'.1.symm, hsame'.2.symm⟩
    exact ⟨node, hother.trans hsearch, hvalue⟩

theorem Finds.effect (hname : Admissible name) (hfinds : h.Finds name handle)
    (hguard : Spares name h a) (heffect : Effect h a h') (hlive : h'.released = false) :
    h'.Finds name handle := by
  rcases heffect.map_cases with hmap | ⟨msg, source, name', rfl, hmsg, hmap⟩ | ⟨name', m, hmap⟩ |
    hreleased
  · rwa [Finds, hmap]
  · have hne : ¬ name'.Same (copyName name) := by
      intro hsame
      exact hguard name' hmsg (hsame.2.trans hname.string_copyName)
    have hother : hashSearch (h.bound name' source).map (copyName name) = _ :=
      hashSearch_hashUpdate_of_ne h.map (fun _ => ⟨rfl, rfl⟩) hne
    rwa [Finds, hmap, hother]
  · have hawait := hfinds.awaiting name' m
    rwa [Finds, ← hmap] at hawait
  · rw [hreleased] at hlive
    cases hlive

theorem Finds.run (hname : Admissible name) {w : List HarborAct}
    (hrun : Run (step refused) (Spares name) h w h') (hlive : h'.released = false)
    (hfinds : h.Finds name handle) : h'.Finds name handle := by
  refine hrun.invariant (P := fun h' => h'.released = false → h'.Finds name handle)
    (fun _ => hfinds) ?_ hlive
  intro h₁ a h₂ hguard hstep ih hlive₂
  obtain ⟨hlive₁, heffect⟩ := effect_step hstep
  exact (ih hlive₁).effect hname hguard heffect hlive₂

/-! ### The names that work -/

/-- The command of `harbor.REGISTER` is accepted, and the name stands for the handle until it is
bound again. -/
def Works (refused : List HarborCall → Bool) (name : List UInt8) (handle : UInt32) : Prop :=
  ∀ id slave h, Reachable (step refused) (create id slave) h → h.released = false →
    h.step refused (.mainloop (.harbor (registerText name) handle)) =
      some (h.updateName (commandName name) handle) ∧
    ∀ w h', Run (step refused) (Spares name) (h.updateName (commandName name) handle) w h' →
      h'.released = false → h'.Resolves refused name handle

theorem map_updateName (h : HarborNode) (name : GlobalName) (handle : UInt32) :
    (h.updateName name handle).map = (h.bound name handle).map := by
  unfold updateName dispatchNameQueue
  dsimp only
  split
  · rfl
  · split_ifs <;> rfl

theorem works_of_length_lt (hname : Admissible name) (hhandle : handle ≠ 0)
    (hlength : name.length < globalnameLength) : Works refused name handle := by
  intro id slave h _ hlive
  have hmsg : parseCommand (registerText name) = .name (commandName name) := by
    rw [parseCommand_registerText, if_neg]
    have hpos := hname.length_pos
    omega
  refine ⟨?_, fun w h' hrun hlive' => ?_⟩
  · rw [step, if_neg (by simp [hlive])]
    simp only [mainloop, harborCommand, hmsg]
    rfl
  · have hfinds : (h.updateName (commandName name) handle).Finds name handle := by
      rw [Finds, map_updateName]
      exact Finds.bound hname h handle
    exact (hfinds.run hname hrun hlive').resolves hhandle

/-- The command with a name of 16 bytes is reported as invalid. -/
theorem not_works_of_length_le (hlength : globalnameLength ≤ name.length) :
    ¬ Works refused name handle := by
  intro hworks
  have hstep := (hworks 1 1 (create 1 1) (.refl _) rfl).1
  have hmsg : parseCommand (registerText name) = .invalidName := by
    rw [parseCommand_registerText, if_pos (.inr hlength)]
  rw [step, if_neg (by simp [create])] at hstep
  simp only [mainloop, harborCommand, hmsg] at hstep
  have hlog := congrArg HarborNode.log (Option.some_inj.mp hstep)
  cases hlog

/-- Every name that can be registered works and has its own entry, except for the names of 16
bytes. -/
theorem works_iff (refused : List HarborCall → Bool) (name : List UInt8) (handle : UInt32)
    (hname : Admissible name) (hhandle : handle ≠ 0) :
    (Works refused name handle ∧ Unshared name) ↔ name.length < globalnameLength := by
  constructor
  · intro hworks
    by_contra hlength
    exact not_works_of_length_le (not_lt.mp hlength) hworks.1
  · exact fun hlength => ⟨works_of_length_lt hname hhandle hlength, hname.unshared⟩

theorem works_iff_fifteen :
    Admissible (text "abcdefghijklmno") ∧ Unshared (text "abcdefghijklmno") ∧
      Works (fun _ => false) (text "abcdefghijklmno") 0x01000009 := by
  have hname : Admissible (text "abcdefghijklmno") := ⟨by decide, by decide, by decide, by decide⟩
  obtain ⟨hworks, hunshared⟩ :=
    (works_iff (fun _ => false) _ 0x01000009 hname (by decide)).mpr (by decide)
  exact ⟨hname, hunshared, hworks⟩

/-- A name of 16 bytes can be registered and does not work: a message to it waits for ever. -/
theorem longest_name_unknown : Admissible (text "abcdefghijklmnop") ∧
      ¬ Works (fun _ => false) (text "abcdefghijklmnop") 0x01000009 ∧
      ∃ h, Reachable (step fun _ => false) (create 1 0x01000001) h ∧
        (create 1 0x01000001).step (fun _ => false)
          (.mainloop (.harbor (registerText (text "abcdefghijklmnop")) 0x01000009)) = some h ∧
        ¬ h.Finds (text "abcdefghijklmnop") 0x01000009 := by
  refine ⟨⟨by decide, by decide, by decide, by decide⟩, not_works_of_length_le (by decide), ?_⟩
  let msg := registerText (text "abcdefghijklmnop")
  have hstep : (create 1 0x01000001).step (fun _ => false) (.mainloop (.harbor msg 0x01000009)) =
      some ((create 1 0x01000001).emit [.error (.invalidGlobalName msg)]) := rfl
  refine ⟨_, (Reachable.refl _).tail hstep, hstep, ?_⟩
  rintro ⟨node, hsearch, -⟩
  cases hsearch

end HarborNode

end Uboss.Module
