/-!
# Finite maps with distinct keys

A `Dict` is a list of entries in the order their keys first came in. `get?` and `keys` are the two
views of it; a replaced entry keeps its place. No order on the keys is assumed here.
-/
namespace FairLocks

structure Dict (κ α : Type) where
  entries : List (κ × α)
  nodup : (entries.map Prod.fst).Nodup
  deriving DecidableEq

namespace Dict

variable {κ α : Type}

def empty : Dict κ α := ⟨[], List.nodup_nil⟩

instance : EmptyCollection (Dict κ α) := ⟨empty⟩

def keys (d : Dict κ α) : List κ := d.entries.map Prod.fst

def size (d : Dict κ α) : Nat := d.entries.length

/-- Keeps the entries that satisfy `p`. -/
def filter (p : κ → α → Bool) (d : Dict κ α) : Dict κ α where
  entries := d.entries.filter fun e => p e.1 e.2
  nodup := d.nodup.sublist ((List.filter_sublist).map Prod.fst)

/-- The sum of a measure over all values. -/
def total (f : α → Nat) (d : Dict κ α) : Nat := d.entries.foldr (fun e n => f e.2 + n) 0

@[simp] theorem keys_empty : (∅ : Dict κ α).keys = [] := rfl

variable [DecidableEq κ]

/-- The first value stored under `k`. -/
def lookup (k : κ) : List (κ × α) → Option α
  | [] => none
  | e :: l => if e.1 = k then some e.2 else lookup k l

/-- Puts `a` in the place of the entry under `k`, or behind all entries if there is none. -/
def put (k : κ) (a : α) : List (κ × α) → List (κ × α)
  | [] => [(k, a)]
  | e :: l => if e.1 = k then (k, a) :: l else e :: put k a l

theorem map_fst_put (k : κ) (a : α) (l : List (κ × α)) :
    (put k a l).map Prod.fst =
      if k ∈ l.map Prod.fst then l.map Prod.fst else l.map Prod.fst ++ [k] := by
  induction l with
  | nil => simp [put]
  | cons e l ih =>
    by_cases h : e.1 = k
    · simp [put, h]
    · have hk : ¬ k = e.1 := fun hk => h hk.symm
      simp only [put, h, if_false, List.map_cons, List.mem_cons, hk, false_or, ih]
      split <;> simp

theorem nodup_put (k : κ) (a : α) {l : List (κ × α)} (h : (l.map Prod.fst).Nodup) :
    ((put k a l).map Prod.fst).Nodup := by
  rw [map_fst_put]
  split
  · exact h
  · rename_i hk
    refine List.nodup_append.2 ⟨h, List.nodup_cons.2 ⟨List.not_mem_nil, List.nodup_nil⟩, ?_⟩
    intro x hx y hy hxy
    rw [List.mem_singleton] at hy
    exact hk (hy ▸ hxy ▸ hx)

def get? (d : Dict κ α) (k : κ) : Option α := lookup k d.entries

def insert (d : Dict κ α) (k : κ) (a : α) : Dict κ α := ⟨put k a d.entries, nodup_put k a d.nodup⟩

def erase (d : Dict κ α) (k : κ) : Dict κ α := d.filter fun k' _ => decide (k' ≠ k)

@[simp] theorem get?_empty (k : κ) : (∅ : Dict κ α).get? k = none := rfl

theorem lookup_put (k k' : κ) (a : α) (l : List (κ × α)) :
    lookup k' (put k a l) = if k = k' then some a else lookup k' l := by
  induction l with
  | nil => simp [put, lookup]
  | cons e l ih =>
    by_cases h : e.1 = k
    · by_cases hk : k = k' <;> simp [put, lookup, h, hk]
    · by_cases hk : k = k'
      · subst hk; simp [put, lookup, h, ih]
      · simp [put, lookup, h, ih, hk]

theorem get?_insert (d : Dict κ α) (k k' : κ) (a : α) :
    (d.insert k a).get? k' = if k = k' then some a else d.get? k' :=
  lookup_put k k' a d.entries

@[simp] theorem get?_insert_self (d : Dict κ α) (k : κ) (a : α) :
    (d.insert k a).get? k = some a := by
  simp [get?_insert]

theorem get?_insert_of_ne (d : Dict κ α) {k k' : κ} (a : α) (h : k ≠ k') :
    (d.insert k a).get? k' = d.get? k' := by
  simp [get?_insert, h]

theorem keys_insert (d : Dict κ α) (k : κ) (a : α) :
    (d.insert k a).keys = if k ∈ d.keys then d.keys else d.keys ++ [k] :=
  map_fst_put k a d.entries

theorem put_put (k : κ) (a b : α) (l : List (κ × α)) : put k b (put k a l) = put k b l := by
  induction l with
  | nil => simp [put]
  | cons e l ih =>
    by_cases h : e.1 = k
    · simp [put, h]
    · simp [put, h, ih]

@[simp] theorem insert_insert (d : Dict κ α) (k : κ) (a b : α) :
    (d.insert k a).insert k b = d.insert k b := by
  simp only [insert, put_put]

/-- What holds of every value, and of the new one, holds after an insertion. -/
theorem forall_get?_insert {p : κ → α → Prop} {d : Dict κ α} {k : κ} {a : α}
    (h : ∀ k' a', d.get? k' = some a' → p k' a') (hk : p k a) :
    ∀ k' a', (d.insert k a).get? k' = some a' → p k' a' := by
  intro k' a' ha
  rw [get?_insert] at ha
  split at ha
  · cases ha
    rename_i heq
    exact heq ▸ hk
  · exact h k' a' ha

theorem lookup_eq_none_iff (k : κ) (l : List (κ × α)) :
    lookup k l = none ↔ k ∉ l.map Prod.fst := by
  induction l with
  | nil => simp [lookup]
  | cons e l ih =>
    by_cases h : e.1 = k
    · simp [lookup, h]
    · have hk : ¬ k = e.1 := fun hk => h hk.symm
      simp only [lookup, h, if_false, ih, List.map_cons, List.mem_cons, hk, false_or]

theorem get?_eq_none_iff (d : Dict κ α) (k : κ) : d.get? k = none ↔ k ∉ d.keys :=
  lookup_eq_none_iff k d.entries

theorem mem_keys_iff (d : Dict κ α) (k : κ) : k ∈ d.keys ↔ ∃ a, d.get? k = some a := by
  rw [← Option.isSome_iff_exists, Option.isSome_iff_ne_none, Ne, get?_eq_none_iff]
  exact Decidable.not_not.symm

/-- A value that is replaced leaves the number of entries as it is. -/
theorem size_insert_of_get? (d : Dict κ α) {k : κ} {a a' : α} (h : d.get? k = some a) :
    (d.insert k a').size = d.size := by
  have hkeys : (d.insert k a').keys = d.keys := by
    rw [keys_insert, if_pos ((mem_keys_iff d k).2 ⟨a, h⟩)]
  have hlength := congrArg List.length hkeys
  simp only [keys, List.length_map] at hlength
  exact hlength

theorem get?_of_mem {d : Dict κ α} {e : κ × α} (h : e ∈ d.entries) : d.get? e.1 = some e.2 := by
  have hlookup (l : List (κ × α)) (hn : (l.map Prod.fst).Nodup) (he : e ∈ l) :
      lookup e.1 l = some e.2 := by
    induction l with
    | nil => exact absurd he List.not_mem_nil
    | cons x l ih =>
      obtain ⟨hx, hl⟩ := List.nodup_cons.1 hn
      rcases List.mem_cons.1 he with rfl | he
      · exact if_pos rfl
      · have hne : x.1 ≠ e.1 := fun heq => hx (heq ▸ List.mem_map_of_mem he)
        rw [lookup, if_neg hne]
        exact ih hl he
  exact hlookup d.entries d.nodup h

theorem mem_entries_of_get? {d : Dict κ α} {k : κ} {a : α}
    (h : d.get? k = some a) : (k, a) ∈ d.entries := by
  obtain ⟨e, he, rfl⟩ := List.mem_map.1 ((d.mem_keys_iff k).2 ⟨a, h⟩)
  cases h.symm.trans (Dict.get?_of_mem he)
  exact he

theorem lookup_filter (p : κ → α → Bool) (k : κ) {l : List (κ × α)} (h : (l.map Prod.fst).Nodup) :
    lookup k (l.filter fun e => p e.1 e.2) = (lookup k l).filter (p k) := by
  induction l with
  | nil => rfl
  | cons e l ih =>
    obtain ⟨hn, hl⟩ := List.nodup_cons.1 h
    by_cases hk : e.1 = k
    · subst hk
      have hnone : lookup e.1 l = none := (lookup_eq_none_iff _ _).2 hn
      by_cases hp : p e.1 e.2 = true
      · simp [hp, lookup, Option.filter]
      · simp [hp, lookup, ih hl, hnone, Option.filter]
    · by_cases hp : p e.1 e.2 = true
      · simp [hp, lookup, hk, ih hl]
      · simp [hp, lookup, hk, ih hl]

theorem get?_filter (p : κ → α → Bool) (d : Dict κ α) (k : κ) :
    (d.filter p).get? k = (d.get? k).filter (p k) :=
  lookup_filter p k d.nodup

theorem get?_erase (d : Dict κ α) (k k' : κ) :
    (d.erase k).get? k' = if k = k' then none else d.get? k' := by
  by_cases h : k = k'
  · subst h
    cases hd : d.get? k <;> simp [erase, get?_filter, hd]
  · have hk : ¬ k' = k := fun hk => h hk.symm
    cases hd : d.get? k' <;> simp [erase, get?_filter, hd, h, hk]

@[simp] theorem get?_erase_self (d : Dict κ α) (k : κ) : (d.erase k).get? k = none := by
  simp [get?_erase]

theorem get?_erase_of_ne (d : Dict κ α) {k k' : κ} (h : k ≠ k') :
    (d.erase k).get? k' = d.get? k' := by
  simp [get?_erase, h]

theorem foldr_put (f : α → Nat) (k : κ) (a : α) (l : List (κ × α)) :
    (put k a l).foldr (fun e n => f e.2 + n) 0 + ((lookup k l).map f).getD 0 =
      l.foldr (fun e n => f e.2 + n) 0 + f a := by
  induction l with
  | nil => simp [put, lookup]
  | cons e l ih =>
    by_cases h : e.1 = k
    · simp only [put, lookup, h, if_true, List.foldr_cons, Option.map_some, Option.getD_some]
      omega
    · simp only [put, lookup, h, if_false, List.foldr_cons]
      omega

/-- What a value adds to the total takes the place of what the value before it added. -/
theorem total_insert (d : Dict κ α) (f : α → Nat) (k : κ) (a : α) :
    (d.insert k a).total f + ((d.get? k).map f).getD 0 = d.total f + f a :=
  foldr_put f k a d.entries

theorem foldr_filter_ne (f : α → Nat) (k : κ) {l : List (κ × α)} (h : (l.map Prod.fst).Nodup) :
    (l.filter fun e => decide (e.1 ≠ k)).foldr (fun e n => f e.2 + n) 0 +
        ((lookup k l).map f).getD 0 =
      l.foldr (fun e n => f e.2 + n) 0 := by
  induction l with
  | nil => rfl
  | cons e l ih =>
    obtain ⟨hn, hl⟩ := List.nodup_cons.1 h
    have ih := ih hl
    by_cases hk : e.1 = k
    · subst hk
      rw [(lookup_eq_none_iff _ _).2 hn] at ih
      simp only [Option.map_none, Option.getD_none, Nat.add_zero] at ih
      simp only [lookup, if_true, ne_eq, not_true_eq_false, decide_false, List.filter_cons,
        Bool.false_eq_true, if_false, Option.map_some, Option.getD_some, List.foldr_cons] at ih ⊢
      omega
    · simp only [lookup, hk, if_false, ne_eq, not_false_eq_true, decide_true, List.filter_cons,
        if_true, List.foldr_cons] at ih ⊢
      omega

theorem total_erase (d : Dict κ α) (f : α → Nat) (k : κ) :
    (d.erase k).total f + ((d.get? k).map f).getD 0 = d.total f :=
  foldr_filter_ne f k d.nodup

end Dict

end FairLocks
