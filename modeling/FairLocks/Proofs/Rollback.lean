import FairLocks.Proofs.Group

/-!
# Whose permits a rollback returns

A rollback looks for a member by its resource and by the serial of the permit it was granted. A
serial belongs to one permit as long as the slot stands; a slot that is made anew counts from the
start. So what a rollback returns is its own exactly where the slot has not been dropped since the
grant.
-/
namespace FairLocks

set_option autoImplicit false

section

variable {past p m : List Fact} {s : Service} {call : CallId} {c₀ c : Caller} {key : Key}
    {ticket : Nat}
  {own g : Holding} {party : Party} {budget : Option Nat}

/-- The grant that a call had on a resource is the only one. -/
theorem grant_unique (hb : c₀.Begun) (hw : Working past s call c₀ c)
    (hpast : past = p ++ ⟨call, .granted key ticket own party budget⟩ :: m) :
    ∀ f ∈ p ++ m, f.call = call → f.grants key = false := by
  intro f hf hcall
  by_contra hgrants
  rw [Bool.not_eq_false] at hgrants
  have hnodup := hw.story.nodup_grantedTo hb
  have hown : grantedTo call [⟨call, .granted key ticket own party budget⟩] = [key] := by
    simp [grantedTo, factsOf, Fact.permit?]
  rw [hpast, List.append_cons, grantedTo_append, grantedTo_append, hown, List.append_assoc,
    List.singleton_append, List.nodup_middle, List.nodup_cons, ← grantedTo_append] at hnodup
  exact hnodup.1 (mem_grantedTo hf hcall hgrants)

/-- A permit with the serial of one that a call took is that permit if the slot still stands. -/
theorem eq_of_kept (ho : Orderly past s)
    (hpast : past = p ++ ⟨call, .granted key ticket own party budget⟩ :: m)
    (hkept : ∀ f ∈ m, f.evicts key = false) (hout : g ∈ holdingsAt s.slots key)
    (hserial : own.serial = g.serial) : g = own := by
  have hledger := ho.ledger
  rw [hpast] at hledger
  obtain ⟨slot, hslot, -, hunique⟩ := Ledger.stands_of_kept hledger hkept
  rw [holdingsAt_eq hslot] at hout
  exact hunique g hout hserial.symm

/-- What is out under the serial of a member is the permit of the call exactly where the slot was
kept. -/
theorem own_iff_kept (ho : Orderly past s) (hb : c₀.Begun) (hw : Working past s call c₀ c)
    {member : ResourceId × Nat} (hmember : member ∈ c.left) (hkey : c.keyOf member.1 = key)
    (hserial : member.2 = g.serial) (hout : g ∈ holdingsAt s.slots key) :
    ∃ p m ticket own party budget, past = p ++ ⟨call, .granted key ticket own party budget⟩ :: m ∧
      (∀ f ∈ p ++ m, f.call = call → f.grants key = false) ∧
      own.serial = g.serial ∧ (g.grantee = call → g = own) ∧
      (g.grantee = call ↔ ∀ f ∈ m, f.evicts key = false) := by
  by_cases hgrantee : g.grantee = call
  · obtain ⟨p, m, ticket, party, budget, hpast, hkept⟩ := ho.ledger.granted_of_out hout
    rw [hgrantee] at hpast
    exact ⟨p, m, ticket, g, party, budget, hpast, grant_unique hb hw hpast, rfl, fun _ => rfl,
      fun _ => hkept, fun _ => hgrantee⟩
  -- what is out belongs to another call, so the slot that granted the member is gone
  · obtain ⟨tried, htaken, -⟩ := hw.story.tried hb
    have hmem : member ∈ c.taken := by
      rw [htaken]
      exact List.mem_append_right _ hmember
    obtain ⟨ticket, own, party, budget, hgranted, hown⟩ := hw.story.granted_of_mem_taken hb hmem
    have hpast := (mem_factsOf.1 hgranted).1
    have hcall := ho.ledger.grantee_of_granted hpast
    obtain ⟨p, m, hpast⟩ := List.append_of_mem hpast
    rw [hkey] at hpast
    refine ⟨p, m, ticket, own, party, budget, hpast, grant_unique hb hw hpast, hown.trans hserial,
      fun heq => absurd heq hgrantee, fun heq => absurd heq hgrantee, fun hkept => ?_⟩
    rw [eq_of_kept ho hpast hkept hout (hown.trans hserial)]
    exact hcall

end

/-- A permit that a timed call for several resources returns was granted to it if and only if the
slot was not dropped between the grant that the call had on the resource and the return. -/
theorem rollback_returns_own_iff (h : History) {before after : List Action} {call : CallId}
    {request : Request} {typeName : String} {ids : List ResourceId} {party : Party} {timeout : Nat}
    (ha : h.actions = before ++ .submit call request :: after)
    (hrequest : request = .tryLockMany typeName ids party timeout ∨
      request = .tryLockManyDetailed typeName ids party timeout)
    {past rest : List Fact} {key : Key} {g : Holding} {party' : Party}
    (hfacts : h.facts = past ++ ⟨call, .returned key g party'⟩ :: rest) :
    ∃ p m ticket own party'' budget,
      past = p ++ ⟨call, .granted key ticket own party'' budget⟩ :: m ∧
      (∀ f ∈ p ++ m, f.call = call → f.grants key = false) ∧
      own.serial = g.serial ∧ (g.grantee = call → g = own) ∧
      (g.grantee = call ↔ ∀ f ∈ m, f.evicts key = false) := by
  have hengage : ∃ goal, (h.start.run before).service.submit call request =
      (h.start.run before).service.engage call typeName ids party goal := by
    rcases hrequest with rfl | rfl
    · exact ⟨_, rfl⟩
    · exact ⟨_, rfl⟩
  obtain ⟨goal, hengage⟩ := hengage
  cases hvalid : (h.start.run before).service.resolveFor typeName party with
  | error e =>
    have hmem : (⟨call, .returned key g party'⟩ : Fact) ∈ h.facts := by
      rw [hfacts]
      exact List.mem_append_right _ List.mem_cons_self
    cases History.of_refused ha hengage hvalid hmem rfl
  | ok type =>
    obtain ⟨-, c₀, past₁, s₁, he, -⟩ := History.engaged ha hengage hvalid
    obtain ⟨p, s, c, t, b, a, ho, hw, hstep, ht, rfl, -⟩ := he.exists_step hfacts rfl
    obtain ⟨rfl, hout, member, hmember, hkey, hserial⟩ := hstep.of_returned hw.working ht
    rw [List.append_nil]
    exact own_iff_kept ho he.begun hw hmember hkey hserial hout

/-- While a call for two resources waits for the second, the first is unlocked, its slot is dropped,
and another call locks it. -/
def evictedMeanwhile : History where
  start := .withType ⟨"doc", 1, .exclusivePerOwner⟩
  actions := [.submit 1 (.lock "doc" 2 (.owner 1)), .move 1,
    .submit 2 (.tryLockManyDetailed "doc" [1, 2] (.owner 7) 5), .move 2, .move 2,
    .submit 3 (.unlock "doc" 1 (.owner 7)), .submit 4 .evictIdle,
    .submit 5 (.lock "doc" 1 (.owner 9)), .move 5, .pass 5, .move 2, .move 2, .move 2]
  isNew := Service.new_doc
  numbered := by decide

theorem rollback_returns_own_iff_evictedMeanwhile :
    ∃ p m ticket own party budget,
      evictedMeanwhile.facts.take 15 = p ++ ⟨2, .granted ("doc", 1) ticket own party budget⟩ :: m ∧
      own.serial = 0 ∧ ¬ ∀ f ∈ m, f.evicts ("doc", 1) = false := by
  obtain ⟨p, m, ticket, own, party, budget, hpast, -, hserial, -, hiff⟩ :=
    @rollback_returns_own_iff evictedMeanwhile (evictedMeanwhile.actions.take 2)
      (evictedMeanwhile.actions.drop 3) 2 _ "doc" [1, 2] (.owner 7) 5 rfl (.inr rfl)
      (evictedMeanwhile.facts.take 15) (evictedMeanwhile.facts.drop 16) ("doc", 1)
      ⟨0, OwnerSet.ofList [9], 5⟩ (.owner 7) rfl
  refine ⟨p, m, ticket, own, party, budget, hpast, hserial, fun hkept => ?_⟩
  exact absurd (hiff.2 hkept) (by decide)

/-- A rollback may return the permit of another call. -/
theorem rollback_returns_foreign :
    ¬ ∀ (h : History) (before after : List Action) (call : CallId) (typeName : String)
      (ids : List ResourceId) (party : Party) (timeout : Nat),
      h.actions = before ++ .submit call (.tryLockManyDetailed typeName ids party timeout) ::
        after →
      ∀ key g party', ⟨call, .returned key g party'⟩ ∈ h.facts → g.grantee = call := by
  intro hall
  have hown := hall evictedMeanwhile (evictedMeanwhile.actions.take 2)
    (evictedMeanwhile.actions.drop 3) 2
    "doc" [1, 2] (.owner 7) 5 rfl ("doc", 1) ⟨0, OwnerSet.ofList [9], 5⟩ (.owner 7)
    (List.mem_of_getElem? (i := 15) rfl)
  exact absurd hown (by decide)

end FairLocks
