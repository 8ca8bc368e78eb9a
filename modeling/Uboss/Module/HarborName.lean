import Mathlib.Data.List.TakeWhile
import Uboss.Math.Chains
import Uboss.Module.HarborMessage

/-!
# Global names

A global name is known to the harbor as an array of 16 bytes, filled up with zeros. The names are
kept in a hash table; a name is found if the hash is the same and `strncmp` finds no difference,
that is, up to the first zero.
-/

namespace Uboss.Module

open Math List

def globalnameLength : ℕ := 16

def hashSize : ℕ := 4096

/-- `char name[GLOBALNAME_LENGTH]`. -/
structure GlobalName where
  bytes : List UInt8
  length_eq : bytes.length = globalnameLength
  deriving DecidableEq

/-- The first bytes of an array that is filled with zeros. -/
def GlobalName.ofBytes (l : List UInt8) : GlobalName where
  bytes := l.take globalnameLength ++ List.replicate (globalnameLength - l.length) 0
  length_eq := by
    rw [List.length_append, List.length_take, List.length_replicate]
    omega

def copyName (addr : List UInt8) : GlobalName := .ofBytes (addr.takeWhile (· ≠ 0))

/-- The name of the command `N`, after `memset` and `memcpy`. -/
def commandName (name : List UInt8) : GlobalName := .ofBytes name

/-- The bytes of the name as a string, up to a zero. -/
def GlobalName.string (name : GlobalName) : List UInt8 := name.bytes.takeWhile (· ≠ 0)

/-- A word of the array, as the processor reads it. -/
def GlobalName.word (name : GlobalName) (i : ℕ) : UInt32 :=
  fromBigendian ((name.bytes.drop (4 * i)).take 4).reverse

/-- The hash of a name. -/
def GlobalName.hash (name : GlobalName) : UInt32 :=
  name.word 0 ^^^ name.word 1 ^^^ name.word 2 ^^^ name.word 3

/-- `strncmp` finds no difference. -/
def strncmpEq : List UInt8 → List UInt8 → Bool
  | a :: as, b :: bs => if a = b then (if a = 0 then true else strncmpEq as bs) else false
  | _, _ => true

/-- `struct keyvalue`. -/
structure KeyValue (μ : Type) where
  key : GlobalName
  hash : UInt32
  value : UInt32
  queue : Option (List μ)

/-- `struct hashmap`. -/
abbrev NameMap (μ : Type) := Fin hashSize → List (KeyValue μ)

section Table

variable {μ : Type}

/-- The test of `hash_search`. -/
def KeyValue.matches (name : GlobalName) (node : KeyValue μ) : Bool :=
  decide (node.hash = name.hash) && strncmpEq node.key.bytes name.bytes

/-- The index of the chain. -/
def nameBucket (name : GlobalName) : Fin hashSize :=
  ⟨name.hash.toNat % hashSize, Nat.mod_lt _ (by decide)⟩

def hashSearch (map : NameMap μ) (name : GlobalName) : Option (KeyValue μ) :=
  Chains.find nameBucket KeyValue.matches map name

/-- The node of `hash_insert`. -/
def newNode (μ : Type) (name : GlobalName) : KeyValue μ := ⟨name, name.hash, 0, none⟩

/-- A change to the node of a name, which `hash_insert` makes if there is none. -/
def hashUpdate (map : NameMap μ) (name : GlobalName) (f : KeyValue μ → KeyValue μ) : NameMap μ :=
  Chains.upsert nameBucket KeyValue.matches map name f (newNode μ name)

end Table

/-! ### Strings of bytes -/

/-- Arrays of the same length are not told apart if they are the same up to a zero. -/
theorem strncmpEq_iff {k l : List UInt8} (hlen : k.length = l.length) :
    strncmpEq k l = true ↔ k.takeWhile (· ≠ 0) = l.takeWhile (· ≠ 0) := by
  induction k generalizing l with
  | nil =>
    obtain rfl : l = [] := length_eq_zero_iff.mp hlen.symm
    simp [strncmpEq]
  | cons a k ih =>
    cases l with
    | nil => simp at hlen
    | cons b l =>
      have hlen' : k.length = l.length := by simpa using hlen
      rw [strncmpEq]
      by_cases hab : a = b
      · subst hab
        by_cases ha : a = 0
        · simp [ha]
        · simpa [ha] using ih hlen'
      · rw [if_neg hab]
        refine iff_of_false Bool.false_ne_true fun heq => ?_
        by_cases ha : a = 0
        · have hb : b ≠ 0 := fun hb => hab (ha.trans hb.symm)
          simp [ha, hb] at heq
        · by_cases hb : b = 0
          · simp [ha, hb] at heq
          · simp [ha, hb, hab] at heq

theorem string_ofBytes {l : List UInt8} (hlen : l.length ≤ globalnameLength) (hzero : 0 ∉ l) :
    (GlobalName.ofBytes l).string = l := by
  have hall : ∀ b ∈ l, decide (b ≠ 0) = true := by
    intro b hb
    exact decide_eq_true fun h => hzero (h ▸ hb)
  have hbytes : (GlobalName.ofBytes l).bytes =
      l ++ List.replicate (globalnameLength - l.length) 0 := by
    simp only [GlobalName.ofBytes, take_of_length_le hlen]
  rw [GlobalName.string, hbytes, takeWhile_append_of_pos hall]
  cases globalnameLength - l.length with
  | zero => rw [replicate_zero, takeWhile_nil, append_nil]
  | succ n =>
    rw [replicate_succ, takeWhile_cons, if_neg (by simp), append_nil]

theorem copyName_eq {l : List UInt8} (hzero : 0 ∉ l) : copyName l = GlobalName.ofBytes l := by
  rw [copyName, takeWhile_eq_self_iff.mpr]
  intro b hb
  exact decide_eq_true fun h => hzero (h ▸ hb)

section Matches

variable {μ : Type} {name name' : GlobalName} {node : KeyValue μ}

variable {f : KeyValue μ → KeyValue μ} {map : NameMap μ}

/-- Which entries a name finds. -/
theorem matches_iff : node.matches name = true ↔
    node.hash = name.hash ∧ node.key.string = name.string := by
  have hlen : node.key.bytes.length = name.bytes.length :=
    node.key.length_eq.trans name.length_eq.symm
  rw [KeyValue.matches, Bool.and_eq_true, decide_eq_true_eq, strncmpEq_iff hlen]
  rfl

theorem matches_newNode (name : GlobalName) : (newNode μ name).matches name = true :=
  matches_iff.mpr ⟨rfl, rfl⟩

/-- Two arrays find the same nodes if they have the same hash and are the same string. -/
def GlobalName.Same (name name' : GlobalName) : Prop :=
  name.hash = name'.hash ∧ name.string = name'.string

theorem matches_congr (hsame : name.Same name') :
    KeyValue.matches (μ := μ) name = KeyValue.matches name' := by
  funext node
  rw [Bool.eq_iff_iff, matches_iff, matches_iff, hsame.1, hsame.2]

theorem not_matches_of_not_same (hne : ¬ name.Same name') (h : node.matches name = true) :
    ¬ node.matches name' = true := by
  intro h'
  obtain ⟨hhash, hstring⟩ := matches_iff.mp h
  obtain ⟨hhash', hstring'⟩ := matches_iff.mp h'
  exact hne ⟨hhash.symm.trans hhash', hstring.symm.trans hstring'⟩

theorem hashSearch_congr (hsame : name.Same name') (map : NameMap μ) :
    hashSearch map name = hashSearch map name' := by
  have hbucket : nameBucket name = nameBucket name' := by
    simp only [nameBucket, hsame.1]
  rw [hashSearch, hashSearch, Chains.find, Chains.find, hbucket, matches_congr hsame]

/-- The node that was changed or made is found. -/
theorem hashSearch_hashUpdate_self (map : NameMap μ)
    (hkey : ∀ x, (f x).key = x.key ∧ (f x).hash = x.hash) :
    hashSearch (hashUpdate map name f) name =
      some (f ((hashSearch map name).getD (newNode μ name))) := by
  refine Chains.find_upsert_self (fun x hx => ?_) (matches_newNode name)
  rw [matches_iff, (hkey x).1, (hkey x).2]
  exact matches_iff.mp hx

/-- A change to the node of a name is not seen by the others. -/
theorem hashSearch_hashUpdate_of_ne (map : NameMap μ)
    (hkey : ∀ x, (f x).key = x.key ∧ (f x).hash = x.hash) (hne : ¬ name.Same name') :
    hashSearch (hashUpdate map name f) name' = hashSearch map name' := by
  refine Chains.find_upsert_of_ne (fun x hx => not_matches_of_not_same hne hx) (fun x hx => ?_)
    (matches_newNode name)
  rw [matches_iff, (hkey x).1, (hkey x).2]
  exact matches_iff.mp hx

theorem mem_of_hashSearch (hsearch : hashSearch map name = some node) :
    node ∈ map (nameBucket name) :=
  mem_of_find?_eq_some hsearch

/-- The nodes after a change: those before it, and the one that was changed. -/
theorem mem_hashUpdate {b : Fin hashSize} (hnode : node ∈ hashUpdate map name f b) :
    node ∈ map b ∨ node = f ((hashSearch map name).getD (newNode μ name)) :=
  Chains.mem_upsert hnode

end Matches

end Uboss.Module
