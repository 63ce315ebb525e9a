import FairLocks.Slot

/-!
# Requests and replies

What a caller can ask of the library and what it can be told. The single and the many forms, and the
forms for one owner and for a group, differ only in the ids and the party they name.
-/
namespace FairLocks

/-- Who a permit is taken for, or returned by. -/
inductive Party where
  | owner (o : OwnerId)
  | group (os : List OwnerId)
  deriving DecidableEq

namespace Party

/-- The sharing mode a resource type must have to be locked for this party. -/
def mode : Party → SharingMode
  | owner _ => .exclusivePerOwner
  | group _ => .sharedGroup

/-- The owners as the caller listed them. -/
def listed : Party → List OwnerId
  | owner o => [o]
  | group os => os

def owners (p : Party) : OwnerSet := OwnerSet.ofList p.listed

/-- One of the named owners is among the holders of the permit. -/
def Holds (p : Party) (h : Holding) : Prop := ∃ o ∈ p.listed, o ∈ h.owners

instance (p : Party) (h : Holding) : Decidable (p.Holds h) :=
  inferInstanceAs (Decidable (∃ o ∈ p.listed, o ∈ h.owners))

end Party

/-- How a timed call for several resources spends its timeout. -/
inductive GroupTimeout where
  /-- Each member may wait the whole timeout. -/
  | perMember
  /-- The call has one deadline, and each member waits for what is left. -/
  | sharedBudget
  deriving DecidableEq

def GroupTimeout.name : GroupTimeout → String
  | .perMember => "per_member"
  | .sharedBudget => "shared_budget"

inductive Request where
  | createType (type : ResourceType)
  | findType (name : String)
  | typeNames
  | groupTimeout
  | lock (typeName : String) (id : ResourceId) (party : Party)
  | lockMany (typeName : String) (ids : List ResourceId) (party : Party)
  | unlock (typeName : String) (id : ResourceId) (party : Party)
  | unlockMany (typeName : String) (ids : List ResourceId) (party : Party)
  | tryLock (typeName : String) (id : ResourceId) (party : Party) (timeout : Nat)
  | tryLockMany (typeName : String) (ids : List ResourceId) (party : Party) (timeout : Nat)
  /-- Like `tryLockMany`, and tells which resource could not be had. -/
  | tryLockManyDetailed (typeName : String) (ids : List ResourceId) (party : Party) (timeout : Nat)
  | slotState (key : Key)
  | isLocked (key : Key)
  | slotCount
  | evictIdle
  /-- Registers a listener for the events of this name; the call's number names it. -/
  | listen (event : String)
  | removeListener (listener : CallId)
  deriving DecidableEq

/-- How a timed call for several resources ended. -/
inductive GroupOutcome where
  | acquired
  /-- `failed` was not to be had in time; `released` were taken before it and given back, in
  order. -/
  | rolledBack (failed : ResourceId) (released : List ResourceId)
  deriving DecidableEq

def GroupOutcome.isAcquired : GroupOutcome → Bool
  | acquired => true
  | rolledBack _ _ => false

inductive Answer where
  | done
  | type (t : ResourceType)
  | names (l : List String)
  | groupTimeout (g : GroupTimeout)
  | flag (b : Bool)
  | outcome (o : GroupOutcome)
  | state (s : SlotState)
  | count (n : Nat)
  | listener (l : CallId)
  deriving DecidableEq

abbrev Reply := Except LockError Answer

/-- The ids in the order of their first mention, later mentions dropped. -/
def distinct (ids : List ResourceId) : List ResourceId := go [] ids
where
  go (seen : List ResourceId) : List ResourceId → List ResourceId
    | [] => []
    | id :: ids => if id ∈ seen then go seen ids else id :: go (id :: seen) ids

theorem mem_distinct_go {seen ids : List ResourceId} {id : ResourceId} :
    id ∈ distinct.go seen ids ↔ id ∈ ids ∧ id ∉ seen := by
  induction ids generalizing seen with
  | nil => simp [distinct.go]
  | cons x ids ih =>
    unfold distinct.go
    split
    · rename_i hx
      simp only [ih, List.mem_cons]
      constructor
      · exact fun h => ⟨.inr h.1, h.2⟩
      · rintro ⟨rfl | h, hseen⟩
        · exact absurd hx hseen
        · exact ⟨h, hseen⟩
    · rename_i hx
      simp only [List.mem_cons, ih, not_or]
      constructor
      · rintro (rfl | ⟨h, -, hseen⟩)
        · exact ⟨.inl rfl, hx⟩
        · exact ⟨.inr h, hseen⟩
      · rintro ⟨rfl | h, hseen⟩
        · exact .inl rfl
        · by_cases heq : id = x
          · exact .inl heq
          · exact .inr ⟨h, heq, hseen⟩

theorem mem_distinct {ids : List ResourceId} {id : ResourceId} : id ∈ distinct ids ↔ id ∈ ids := by
  simp [distinct, mem_distinct_go]

theorem nodup_distinct_go (seen ids : List ResourceId) : (distinct.go seen ids).Nodup := by
  induction ids generalizing seen with
  | nil => exact List.nodup_nil
  | cons x ids ih =>
    unfold distinct.go
    split
    · exact ih seen
    · refine List.nodup_cons.2 ⟨fun hx => ?_, ih (x :: seen)⟩
      exact (mem_distinct_go.1 hx).2 List.mem_cons_self

theorem nodup_distinct (ids : List ResourceId) : (distinct ids).Nodup := nodup_distinct_go [] ids

end FairLocks
