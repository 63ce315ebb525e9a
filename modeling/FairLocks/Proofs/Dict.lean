import Mathlib.Data.List.Forall2
import FairLocks.Dict

/-!
# More about finite maps

What two maps come to that are made from each other: by changing every value in its place, by
leaving entries out, by putting a value where it is already, or by putting in and taking out what
does not meet.
-/
namespace FairLocks

set_option autoImplicit false

namespace Dict

section

variable {κ α : Type}

/-- Applies `f` to every value. -/
def map (f : κ → α → α) (d : Dict κ α) : Dict κ α where
  entries := d.entries.map fun e => (e.1, f e.1 e.2)
  nodup := by
    rw [List.map_map]
    exact d.nodup

theorem ext_entries {d d' : Dict κ α} (h : d.entries = d'.entries) : d = d' := by
  cases d
  cases d'
  cases h
  rfl

@[simp] theorem keys_map (f : κ → α → α) (d : Dict κ α) : (d.map f).keys = d.keys := by
  rw [keys, keys, map, List.map_map]
  rfl

@[simp] theorem size_map (f : κ → α → α) (d : Dict κ α) : (d.map f).size = d.size :=
  List.length_map _

theorem map_map (f g : κ → α → α) (d : Dict κ α) :
    (d.map g).map f = d.map fun k a => f k (g k a) := by
  apply ext_entries
  exact List.map_map

theorem filter_map (f : κ → α → α) (p : κ → α → Bool) (d : Dict κ α) :
    (d.map f).filter p = (d.filter fun k a => p k (f k a)).map f := by
  apply ext_entries
  simp only [map, filter, List.filter_map]
  rfl

theorem filter_congr {p q : κ → α → Bool} {d : Dict κ α}
    (h : ∀ e ∈ d.entries, p e.1 e.2 = q e.1 e.2) :
    d.filter p = d.filter q := by
  apply ext_entries
  exact List.filter_congr h

theorem filter_filter (p q : κ → α → Bool) (d : Dict κ α) :
    (d.filter q).filter p = d.filter fun k a => p k a && q k a := by
  apply ext_entries
  exact List.filter_filter

theorem map_congr {f g : κ → α → α} {d : Dict κ α} (h : ∀ e ∈ d.entries, f e.1 e.2 = g e.1 e.2) :
    d.map f = d.map g := by
  apply ext_entries
  exact List.map_congr_left fun e he => by rw [h e he]

theorem map_eq_self {f : κ → α → α} {d : Dict κ α} (h : ∀ e ∈ d.entries, f e.1 e.2 = e.2) :
    d.map f = d := by
  apply ext_entries
  have hid : d.entries.map (fun e => (e.1, f e.1 e.2)) = d.entries.map id := by
    refine List.map_congr_left fun e he => ?_
    rw [h e he]
    rfl
  exact hid.trans (List.map_id _)

end

variable {κ α : Type} [DecidableEq κ]

theorem get?_map (f : κ → α → α) (d : Dict κ α) (k : κ) :
    (d.map f).get? k = (d.get? k).map (f k) := by
  have hlookup (l : List (κ × α)) :
      lookup k (l.map fun e => (e.1, f e.1 e.2)) = (lookup k l).map (f k) := by
    induction l with
    | nil => rfl
    | cons x l ih =>
      by_cases hk : x.1 = k
      · subst hk
        simp [lookup]
      · simp [lookup, hk, ih]
  exact hlookup d.entries

theorem map_insert (f : κ → α → α) (d : Dict κ α) (k : κ) (a : α) :
    (d.insert k a).map f = (d.map f).insert k (f k a) := by
  have hput (l : List (κ × α)) : (put k a l).map (fun e => (e.1, f e.1 e.2)) =
      put k (f k a) (l.map fun e => (e.1, f e.1 e.2)) := by
    induction l with
    | nil => rfl
    | cons x l ih =>
      by_cases hk : x.1 = k
      · simp [put, hk]
      · simp [put, hk, ih]
  apply ext_entries
  exact hput d.entries

theorem insert_same {d : Dict κ α} {k : κ} {a : α} (h : d.get? k = some a) : d.insert k a = d := by
  have hput (l : List (κ × α)) (hl : lookup k l = some a) : put k a l = l := by
    induction l with
    | nil => cases hl
    | cons x l ih =>
      by_cases hk : x.1 = k
      · rw [lookup, if_pos hk] at hl
        cases hl
        rw [put, if_pos hk, ← hk]
      · rw [lookup, if_neg hk] at hl
        rw [put, if_neg hk, ih hl]
  apply ext_entries
  exact hput d.entries h

theorem erase_map (f : κ → α → α) (d : Dict κ α) (k : κ) : (d.map f).erase k = (d.erase k).map f :=
  filter_map f _ d

theorem erase_insert_self (d : Dict κ α) (k : κ) (a : α) : (d.insert k a).erase k = d.erase k := by
  have hput (l : List (κ × α)) :
      (put k a l).filter (fun e => decide (e.1 ≠ k)) = l.filter fun e => decide (e.1 ≠ k) := by
    induction l with
    | nil => simp [put]
    | cons x l ih =>
      by_cases hk : x.1 = k
      · simp [put, hk]
      · simp only [put, hk, if_false, List.filter_cons, ih]
  apply ext_entries
  exact hput d.entries

theorem erase_insert_of_ne (d : Dict κ α) {k k' : κ} (a : α) (h : k' ≠ k) :
    (d.insert k' a).erase k = (d.erase k).insert k' a := by
  have hput (l : List (κ × α)) : (put k' a l).filter (fun e => decide (e.1 ≠ k)) =
      put k' a (l.filter fun e => decide (e.1 ≠ k)) := by
    induction l with
    | nil => simp [put, h]
    | cons x l ih =>
      by_cases hk' : x.1 = k'
      · simp [put, hk', h]
      · rw [put, if_neg hk']
        by_cases hk : x.1 = k
        · rw [List.filter_cons_of_neg (by simp [hk]), List.filter_cons_of_neg (by simp [hk]), ih]
        · rw [List.filter_cons_of_pos (by simp [hk]), List.filter_cons_of_pos (by simp [hk]), put,
            if_neg hk', ih]
  apply ext_entries
  exact hput d.entries

theorem erase_comm (d : Dict κ α) (k k' : κ) : (d.erase k).erase k' = (d.erase k').erase k := by
  rw [erase, erase, filter_filter, erase, erase, filter_filter]
  exact filter_congr fun e _ => Bool.and_comm _ _

theorem keys_erase (d : Dict κ α) (k : κ) : (d.erase k).keys = d.keys.filter (· ≠ k) := by
  rw [keys, keys, List.filter_map]
  rfl

theorem erase_of_get?_eq_none {d : Dict κ α} {k : κ} (h : d.get? k = none) : d.erase k = d := by
  apply ext_entries
  refine List.filter_eq_self.2 fun e he => decide_eq_true fun hk => ?_
  rw [← hk, get?_of_mem he] at h
  cases h

end Dict

end FairLocks
