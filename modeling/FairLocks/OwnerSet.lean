/-!
# Sets of owners

A permit is held by a set of owners. The set is kept as its strictly ascending list, so two sets
with the same members are equal, whatever lists they were made from.
-/
namespace FairLocks

/-- The number an owner goes by. -/
abbrev OwnerId := Int

structure OwnerSet where
  toList : List OwnerId
  ascending : toList.Pairwise (· < ·)
  deriving DecidableEq

namespace OwnerSet

instance : Membership OwnerId OwnerSet where
  mem s o := o ∈ s.toList

instance (o : OwnerId) (s : OwnerSet) : Decidable (o ∈ s) :=
  inferInstanceAs (Decidable (o ∈ s.toList))

def empty : OwnerSet := ⟨[], List.Pairwise.nil⟩

instance : EmptyCollection OwnerSet := ⟨empty⟩

/-- Inserts into an ascending list at its place, once. -/
def place (o : OwnerId) : List OwnerId → List OwnerId
  | [] => [o]
  | x :: l => if o < x then o :: x :: l else if o = x then x :: l else x :: place o l

theorem mem_place {o p : OwnerId} {l : List OwnerId} : p ∈ place o l ↔ p = o ∨ p ∈ l := by
  induction l with
  | nil => simp [place]
  | cons x l ih =>
    unfold place
    split
    · simp
    · split
      · rename_i h; subst h; simp
      · simp only [List.mem_cons, ih]
        constructor <;> rintro (h | h | h) <;> simp [h]

theorem ascending_place (o : OwnerId) {l : List OwnerId} (h : l.Pairwise (· < ·)) :
    (place o l).Pairwise (· < ·) := by
  induction l with
  | nil => simp [place]
  | cons x l ih =>
    obtain ⟨hx, hl⟩ := List.pairwise_cons.1 h
    unfold place
    split
    · rename_i ho
      refine List.pairwise_cons.2 ⟨fun y hy => ?_, h⟩
      rcases List.mem_cons.1 hy with rfl | hy
      · exact ho
      · exact Int.lt_trans ho (hx y hy)
    · rename_i hlt
      split
      · exact h
      · rename_i hne
        refine List.pairwise_cons.2 ⟨fun y hy => ?_, ih hl⟩
        rcases mem_place.1 hy with rfl | hy
        · exact Int.lt_iff_le_and_ne.2 ⟨Int.not_lt.1 hlt, fun he => hne he.symm⟩
        · exact hx y hy

def insert (s : OwnerSet) (o : OwnerId) : OwnerSet :=
  ⟨place o s.toList, ascending_place o s.ascending⟩

/-- The owners a list names, in whatever order and however often. -/
def ofList (l : List OwnerId) : OwnerSet := l.foldr (fun o s => s.insert o) ∅

/-- All owners of several sets together. -/
def union (ss : List OwnerSet) : OwnerSet := ofList (ss.flatMap toList)

@[simp] theorem mem_toList {o : OwnerId} {s : OwnerSet} : o ∈ s.toList ↔ o ∈ s := Iff.rfl

@[simp] theorem not_mem_empty (o : OwnerId) : o ∉ (∅ : OwnerSet) := List.not_mem_nil

@[simp] theorem mem_insert {o p : OwnerId} {s : OwnerSet} : p ∈ s.insert o ↔ p = o ∨ p ∈ s :=
  mem_place

@[simp] theorem mem_ofList {o : OwnerId} {l : List OwnerId} : o ∈ ofList l ↔ o ∈ l := by
  induction l with
  | nil => simp [ofList]
  | cons x l ih =>
    have h : ofList (x :: l) = (ofList l).insert x := rfl
    simp [h, ih]

@[simp] theorem mem_union {o : OwnerId} {ss : List OwnerSet} : o ∈ union ss ↔ ∃ s ∈ ss, o ∈ s := by
  simp [union]

/-- Ascending lists with the same members are equal. -/
theorem eq_of_ascending {l m : List OwnerId} (hl : l.Pairwise (· < ·)) (hm : m.Pairwise (· < ·))
    (h : ∀ o, o ∈ l ↔ o ∈ m) : l = m := by
  induction l generalizing m with
  | nil => exact (List.eq_nil_iff_forall_not_mem.2 fun o ho => List.not_mem_nil ((h o).2 ho)).symm
  | cons x l ih =>
    cases m with
    | nil => exact absurd ((h x).1 List.mem_cons_self) List.not_mem_nil
    | cons y m =>
      obtain ⟨hx, hl'⟩ := List.pairwise_cons.1 hl
      obtain ⟨hy, hm'⟩ := List.pairwise_cons.1 hm
      -- each head is the least member of both lists
      have hxy : x = y := by
        rcases List.mem_cons.1 ((h x).1 List.mem_cons_self) with hxm | hxm
        · exact hxm
        · rcases List.mem_cons.1 ((h y).2 List.mem_cons_self) with hyl | hyl
          · exact hyl.symm
          · exact absurd (Int.lt_trans (hy x hxm) (hx y hyl)) (Int.lt_irrefl y)
      subst hxy
      refine congrArg _ (ih hl' hm' fun o => ⟨fun ho => ?_, fun ho => ?_⟩)
      · rcases List.mem_cons.1 ((h o).1 (List.mem_cons_of_mem _ ho)) with rfl | hom
        · exact absurd (hx o ho) (Int.lt_irrefl o)
        · exact hom
      · rcases List.mem_cons.1 ((h o).2 (List.mem_cons_of_mem _ ho)) with rfl | hol
        · exact absurd (hy o ho) (Int.lt_irrefl o)
        · exact hol

@[ext] theorem ext {s t : OwnerSet} (h : ∀ o, o ∈ s ↔ o ∈ t) : s = t := by
  obtain ⟨l, hl⟩ := s
  obtain ⟨m, hm⟩ := t
  have := eq_of_ascending hl hm h
  subst this
  rfl

end OwnerSet

end FairLocks
