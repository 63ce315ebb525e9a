import FairLocks.Proofs.Group

/-!
# All resources or none

A timed call for several resources ends with a permit on each of them, in order, or with none. What
it could not keep is no longer out in its name when it is answered, whatever the others did
meanwhile; and it is answered by an error only if another call returned one of its permits.
-/
namespace FairLocks

set_option autoImplicit false

namespace Step

variable {past : List Fact} {s : Service} {call : CallId} {t : Turn} {c₀ c : Caller}

/-- The step that answers a call for permits is its last one, and grants nothing. -/
theorem of_answered {x : CallId} {reply : Reply} (h : Step past s call t)
    (hw : Working past s call c₀ c) (hf : ⟨x, .answered reply⟩ ∈ t.facts) :
    c.Ends call t.facts ∧ Gone (past ++ t.facts) t.service call ∧
      ∀ key g, g ∈ holdingsAt t.service.slots key → g ∈ holdingsAt s.slots key := by
  obtain ⟨before, after, ht⟩ := List.append_of_mem hf
  rcases h.cases_of_mem ht with ⟨unused, -⟩ | ⟨-, _, _, _, hno⟩ | ⟨c₁, c', told, d, -, step, -, -⟩ |
    ⟨c₁, working, ends, hidle⟩
  · cases hw.working.symm.trans unused.idle
  · cases hno
  · cases step
  · cases hw.working.symm.trans working
    refine ⟨ends, ⟨?_, hidle⟩, fun key g hg => ?_⟩
    · exact ⟨_, List.mem_append_right _ hf, h.mem_call _ hf⟩
    · rcases h.entries.mem_holdings hg with hg | ⟨f, hf, -, ticket, party, budget, hdeed⟩
      · exact hg
      · have hnone := List.filterMap_eq_nil_iff.1 ends.permits_eq f hf
        rw [Fact.permit?, hdeed] at hnone
        cases hnone

end Step

namespace Engaged

variable {h : History} {call : CallId} {c₀ : Caller} {past₁ : List Fact} {s₁ : Service}

/-- Where a call stands when it is answered, and what it has of it later on. -/
theorem of_answered (he : Engaged h call c₀ past₁ s₁) {past rest : List Fact} {reply : Reply}
    (hfacts : h.facts = past ++ ⟨call, .answered reply⟩ :: rest) :
    ∃ (c : Caller) (fs : List Fact), c.Ends call fs ∧ ⟨call, .answered reply⟩ ∈ fs ∧
      c.type = c₀.type ∧ c.goal = c₀.goal ∧ c.itinerary = c₀.itinerary ∧
      grantedTo call h.facts = c.taken.map (fun m => c.keyOf m.1) ∧
      (c.left = [] → ∀ key g, g ∈ holdingsAt h.service.slots key → g.grantee ≠ call) ∧
      ∀ failed left e, c.stage = .undoing failed left (some e) → Robbed past call := by
  obtain ⟨p, s, c, t, before, after, ho, hw, hstep, ht, rfl, hafter⟩ := he.exists_step hfacts rfl
  have hmem : (⟨call, .answered reply⟩ : Fact) ∈ t.facts := by
    rw [ht]
    exact List.mem_append_right _ List.mem_cons_self
  obtain ⟨ends, hgone, hheld⟩ := hstep.of_answered hw hmem
  obtain ⟨-, ⟨fs, hmore, hothers⟩, hlater⟩ := hafter.gone hgone
  obtain ⟨htype, -, hgoal, hway⟩ := hw.story.keeps
  refine ⟨c, t.facts, ends, hmem, htype, hgoal, hway, ?_, fun hleft key g hg hgrantee => ?_,
    fun failed left e stage => ?_⟩
  · rw [grantedTo, hmore, factsOf_append_of_ne hothers, factsOf_append_self ends.mem_call,
      List.filterMap_append, ends.permits_eq, List.append_nil, hw.story.permits_eq he.begun,
      Caller.permits, List.map_map]
    rfl
  · have hout := hheld key g (hlater key g hg hgrantee)
    obtain ⟨m, hm, -⟩ := ho.kept call c hw.working key g hout hgrantee
    rw [hleft] at hm
    exact List.not_mem_nil hm
  · obtain ⟨f, hf, hrobbed⟩ := ho.excused call c failed left e hw.working stage
    exact ⟨f, List.mem_append_left _ hf, hrobbed⟩

end Engaged

/-- A timed call for several resources is granted a permit on each, in order, or holds none of them
when it is answered. It is answered by an error only where another call returned one of its
permits. -/
theorem all_or_nothing (h : History) {before after : List Action} {call : CallId}
    {typeName : String}
    {ids : List ResourceId} {party : Party} {timeout : Nat} {type : ResourceType}
    (ha : h.actions = before ++ .submit call (.tryLockManyDetailed typeName ids party timeout) ::
      after)
    (hvalid : (h.start.run before).service.resolveFor typeName party = .ok type)
    {past rest : List Fact} {reply : Reply}
    (hfacts : h.facts = past ++ ⟨call, .answered reply⟩ :: rest) :
    (reply = .ok (.outcome .acquired) ∧
      grantedTo call h.facts = (distinct ids).map fun id => (typeName, id)) ∨
    ((∃ failed released, reply = .ok (.outcome (.rolledBack failed released)) ∧
        released ++ [failed] <+: distinct ids ∧
        grantedTo call h.facts = released.map fun id => (typeName, id)) ∨
      (∃ e, reply = .error e) ∧ ∃ f ∈ past, f.call ≠ call ∧ ∃ key g party',
        f.deed = .returned key g party' ∧ g.grantee = call) ∧
    ∀ key slot, h.service.slots.get? key = some slot → ∀ g ∈ slot.holdings, g.grantee ≠ call := by
  obtain ⟨hname, c₀, past₁, s₁, he, htype₀, hgoal₀, hway₀⟩ := History.engaged ha rfl hvalid
  obtain ⟨c, fs, ends, hmem, htype, hgoal, hway, hgranted, hheld, hrobbed⟩ := he.of_answered hfacts
  rw [htype₀] at htype
  rw [hgoal₀] at hgoal
  rw [hway₀] at hway
  have hkeys : grantedTo call h.facts = (c.taken.map Prod.fst).map fun id => (typeName, id) := by
    rw [hgranted, List.map_map, ← hname, ← htype]
    rfl
  have hnone (hleft : c.left = []) :
      ∀ key slot, h.service.slots.get? key = some slot → ∀ g ∈ slot.holdings, g.grantee ≠ call :=
    fun key slot hslot g hg => hheld hleft key g (holdingsAt_eq hslot ▸ hg)
  rcases ends.of_answered hmem with ⟨stage, done, rfl⟩ | hsingle | ⟨failed, error, stage, hreply⟩
  -- nothing of its way lies ahead, so it took a permit on all of it
  · left
    rw [hgoal]
    refine ⟨rfl, ?_⟩
    rw [hkeys, ← hway, Caller.itinerary, Caller.here, stage, done, List.append_nil, List.append_nil]
  · exact absurd hgoal (hsingle _ _ _)
  -- every member was tried, so none is left that it could still have
  · right
    refine ⟨?_, hnone (by rw [Caller.left, stage])⟩
    rcases hreply with ⟨e, rfl, rfl⟩ | ⟨-, rfl⟩
    · exact .inr ⟨⟨e, rfl⟩, hrobbed failed [] e stage⟩
    · refine .inl ⟨failed, c.taken.map Prod.fst, ?_, ?_, hkeys⟩
      · rw [hgoal]
        rfl
      · rw [← hway, Caller.itinerary, Caller.here, stage]
        exact List.prefix_append _ _

/-- While a call for two resources waits for the second, the first is unlocked by another. -/
def unlockedMeanwhile : History where
  start := .withType ⟨"doc", 1, .exclusivePerOwner⟩
  actions := [.submit 1 (.lock "doc" 2 (.owner 9)), .move 1,
    .submit 2 (.tryLockManyDetailed "doc" [1, 2, 1] (.owner 7) 5), .move 2, .move 2,
    .submit 3 (.unlock "doc" 1 (.owner 7)), .pass 5, .move 2, .move 2, .move 2]
  isNew := Service.new_doc
  numbered := by decide

theorem all_or_nothing_unlockedMeanwhile :
    (∃ f ∈ unlockedMeanwhile.facts.take 11, f.call ≠ 2 ∧ ∃ key g party,
      f.deed = .returned key g party ∧ g.grantee = 2) ∧
    ∀ key slot, unlockedMeanwhile.service.slots.get? key = some slot →
      ∀ g ∈ slot.holdings, g.grantee ≠ 2 := by
  have h := @all_or_nothing unlockedMeanwhile (unlockedMeanwhile.actions.take 2)
    (unlockedMeanwhile.actions.drop 3) 2 "doc" [1, 2, 1] (.owner 7) 5 ⟨"doc", 1, .exclusivePerOwner⟩
    rfl rfl (unlockedMeanwhile.facts.take 11) [] (.error (.notOwner ("doc", 1) [7])) rfl
  rcases h with ⟨hreply, -⟩ | ⟨⟨failed, released, hreply, -⟩ | ⟨-, hrobbed⟩, hheld⟩
  · cases hreply
  · cases hreply
  · exact ⟨hrobbed, hheld⟩

end FairLocks
