import Leviathan.CTypes

/-! The string map of `hash.c`, and what the profile functions rely on in it. -/
namespace Leviathan

/-- A string map that prints its entries; NULL stands for no text. -/
structure StringMap (H : Type) where
  hash_new : H
  hash_add : H → List UInt8 → List UInt8 → H
  hash_lookup : H → List UInt8 → Option (List UInt8)
  hash_string : H → Option (List UInt8)
  lookup_new (key : List UInt8) : hash_lookup hash_new key = none
  lookup_add (h : H) (key val k : List UInt8) :
    hash_lookup (hash_add h key val) k = if k = key then some val else hash_lookup h k
  prints (h : H) : ∃ entries : List (List UInt8 × List UInt8), (entries.map Prod.fst).Nodup ∧
    (∀ k v, (k, v) ∈ entries ↔ hash_lookup h k = some v) ∧
    (hash_string h).getD [] = entries.flatMap (fun e => e.1 ++ 61 :: e.2 ++ [10])

namespace StringHash

-- HASH_SIZE
def hashSize : ℕ := 100

/-- `hashfunc`; a `char` is signed. -/
def hashfunc (s : List UInt8) : ℕ :=
  s.foldl (fun hashval c =>
    (((if c.toNat < 128 then (c.toNat : ℤ) else c.toNat-256)+21*hashval)%2^32).toNat) 0 % hashSize

/-- The value of a key in a chain. -/
def lookupIn (chain : List (List UInt8 × List UInt8)) (key : List UInt8) : Option (List UInt8) :=
  (chain.find? (fun np => np.1 = key)).map Prod.snd

/-- A new entry goes to the front of its chain, a known one gets the new value. -/
def addIn (chain : List (List UInt8 × List UInt8)) (key val : List UInt8) :
    List (List UInt8 × List UInt8) :=
  if lookupIn chain key = none then (key, val) :: chain
  else chain.map (fun np => if np.1 = key then (np.1, val) else np)

section Chain

variable (chain : List (List UInt8 × List UInt8)) (key val : List UInt8)

theorem lookupIn_cons (np : List UInt8 × List UInt8) :
    lookupIn (np :: chain) key = if np.1 = key then some np.2 else lookupIn chain key := by
  rw [lookupIn, List.find?_cons]
  by_cases h : np.1 = key
  · simp [h]
  · simp [h, lookupIn]

theorem lookupIn_eq_none_iff : lookupIn chain key = none ↔ key ∉ chain.map Prod.fst := by
  rw [lookupIn, Option.map_eq_none_iff, List.find?_eq_none]
  constructor
  · intro h hmem
    obtain ⟨np, hnp, rfl⟩ := List.mem_map.mp hmem
    exact h np hnp (decide_eq_true rfl)
  · intro h np hnp heq
    have hkey : np.1 = key := of_decide_eq_true heq
    exact h (hkey ▸ List.mem_map_of_mem hnp)

theorem lookupIn_addIn (k : List UInt8) :
    lookupIn (addIn chain key val) k = if k = key then some val else lookupIn chain k := by
  rw [addIn]
  split_ifs with hnew hk hk
  · rw [lookupIn_cons, if_pos hk.symm]
  · rw [lookupIn_cons, if_neg (Ne.symm hk)]
  · subst hk
    have hmem : k ∈ chain.map Prod.fst := by
      by_contra h
      exact hnew ((lookupIn_eq_none_iff chain k).mpr h)
    clear hnew
    induction chain with
    | nil => cases hmem
    | cons np chain ih =>
      rw [List.map_cons, lookupIn_cons]
      by_cases h : np.1 = k
      · simp [h]
      · rw [if_neg h, if_neg h]
        rw [List.map_cons, List.mem_cons] at hmem
        exact ih (hmem.resolve_left (Ne.symm h))
  · clear hnew
    induction chain with
    | nil => rfl
    | cons np chain ih =>
      rw [List.map_cons, lookupIn_cons, lookupIn_cons, ih]
      by_cases h : np.1 = key
      · rw [if_pos h, if_neg (by rw [h]; exact Ne.symm hk), if_neg (by rw [h]; exact Ne.symm hk)]
      · rw [if_neg h]

theorem map_fst_addIn : (addIn chain key val).map Prod.fst =
    if key ∈ chain.map Prod.fst then chain.map Prod.fst else key :: chain.map Prod.fst := by
  rw [addIn]
  by_cases h : key ∈ chain.map Prod.fst
  · rw [if_neg (fun hnone => (lookupIn_eq_none_iff chain key).mp hnone h), if_pos h, List.map_map]
    apply List.map_congr_left
    intro np _
    dsimp only [Function.comp]
    split_ifs <;> rfl
  · rw [if_pos ((lookupIn_eq_none_iff chain key).mpr h), if_neg h]
    rfl

theorem mem_iff_lookupIn (hnodup : (chain.map Prod.fst).Nodup) :
    (key, val) ∈ chain ↔ lookupIn chain key = some val := by
  induction chain with
  | nil => simp [lookupIn]
  | cons np chain ih =>
    rw [List.map_cons, List.nodup_cons] at hnodup
    rw [lookupIn_cons, List.mem_cons]
    by_cases h : np.1 = key
    · rw [if_pos h]
      constructor
      · rintro (heq | hmem)
        · rw [← heq]
        · exact absurd (h ▸ List.mem_map_of_mem hmem) hnodup.1
      · intro hval
        rw [← h, ← Option.some.inj hval]
        exact Or.inl rfl
    · rw [if_neg h, ← ih hnodup.2]
      refine or_iff_right ?_
      rintro rfl
      exact h rfl

end Chain

/-- `struct hash`: every entry lies in the chain of its key, which has it once. -/
structure Hash where
  hashtab : ℕ → List (List UInt8 × List UInt8)
  placed : ∀ i k, k ∈ (hashtab i).map Prod.fst → hashfunc k = i
  nodup : ∀ i, ((hashtab i).map Prod.fst).Nodup

def hashNew : Hash where
  hashtab := fun _ => []
  placed := by simp
  nodup := by simp

/-- The chains after an entry has been added to one of them. -/
def addChain (h : Hash) (key val : List UInt8) : ℕ → List (List UInt8 × List UInt8) :=
  Function.update h.hashtab (hashfunc key) (addIn (h.hashtab (hashfunc key)) key val)

theorem addChain_keys (h : Hash) (key val : List UInt8) (i : ℕ) :
    (addChain h key val i).map Prod.fst = (h.hashtab i).map Prod.fst ∨
      (i = hashfunc key ∧ key ∉ (h.hashtab i).map Prod.fst ∧
        (addChain h key val i).map Prod.fst = key :: (h.hashtab i).map Prod.fst) := by
  by_cases hi : i = hashfunc key
  · subst hi
    rw [addChain, Function.update_self, map_fst_addIn]
    by_cases hmem : key ∈ (h.hashtab (hashfunc key)).map Prod.fst
    · rw [if_pos hmem]
      exact Or.inl rfl
    · rw [if_neg hmem]
      exact Or.inr ⟨rfl, hmem, rfl⟩
  · rw [addChain, Function.update_of_ne hi]
    exact Or.inl rfl

def hashAdd (h : Hash) (key val : List UInt8) : Hash where
  hashtab := addChain h key val
  placed := by
    intro i k hk
    rcases addChain_keys h key val i with heq | ⟨hi, -, heq⟩
    · rw [heq] at hk
      exact h.placed i k hk
    · rw [heq, List.mem_cons] at hk
      rcases hk with rfl | hk
      · exact hi.symm
      · exact h.placed i k hk
  nodup := by
    intro i
    rcases addChain_keys h key val i with heq | ⟨-, hnew, heq⟩
    · rw [heq]
      exact h.nodup i
    · rw [heq]
      exact List.nodup_cons.mpr ⟨hnew, h.nodup i⟩

def hashLookup (h : Hash) (key : List UInt8) : Option (List UInt8) :=
  lookupIn (h.hashtab (hashfunc key)) key

def entries (h : Hash) : List (List UInt8 × List UInt8) := (List.range hashSize).flatMap h.hashtab

/-- `hash_string`, with a text buffer that is always large enough. -/
def hashString (h : Hash) : Option (List UInt8) :=
  if entries h = [] then none else some ((entries h).flatMap (fun e => e.1 ++ 61 :: e.2 ++ [10]))

theorem nodup_entries (h : Hash) : ((entries h).map Prod.fst).Nodup := by
  rw [entries, List.map_flatMap, List.nodup_flatMap]
  refine ⟨fun i _ => h.nodup i, ?_⟩
  apply List.nodup_range.imp
  intro i j hij k hi hj
  exact hij ((h.placed i k hi).symm.trans (h.placed j k hj))

theorem mem_entries_iff (h : Hash) (k v : List UInt8) :
    (k, v) ∈ entries h ↔ hashLookup h k = some v := by
  rw [hashLookup, ← mem_iff_lookupIn _ _ _ (h.nodup _), entries, List.mem_flatMap]
  constructor
  · rintro ⟨i, -, hmem⟩
    rw [h.placed i k (List.mem_map_of_mem hmem)]
    exact hmem
  · intro hmem
    exact ⟨_, List.mem_range.mpr (Nat.mod_lt _ (by decide)), hmem⟩

/-- `hash.c` is such a map. -/
def hashModule : StringMap Hash where
  hash_new := hashNew
  hash_add := hashAdd
  hash_lookup := hashLookup
  hash_string := hashString
  lookup_new := fun _ => rfl
  lookup_add := by
    intro h key val k
    rw [hashLookup, hashAdd, hashLookup]
    dsimp only [addChain]
    by_cases hk : hashfunc k = hashfunc key
    · rw [hk, Function.update_self, lookupIn_addIn]
    · rw [Function.update_of_ne hk, if_neg (fun heq => hk (congrArg hashfunc heq))]
  prints := by
    intro h
    refine ⟨entries h, nodup_entries h, mem_entries_iff h, ?_⟩
    rw [hashString]
    split_ifs with hempty
    · rw [hempty]
      rfl
    · rfl

end StringHash

end Leviathan
