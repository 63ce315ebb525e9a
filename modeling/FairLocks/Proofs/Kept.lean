import FairLocks.Proofs.Permits
import FairLocks.Proofs.Step

/-!
# What a call holds

The facts of a call at work tell its story. Whatever is out in its name it took and has not yet
tried to give back; and where it finds a permit of its own missing, another call returned it.
-/
namespace FairLocks

set_option autoImplicit false

/-- The call began as `c₀` and is now at `c`, as its facts tell. -/
structure Working (past : List Fact) (s : Service) (call : CallId) (c₀ c : Caller) : Prop where
  working : s.callers.get? call = some c
  story : Story call c₀ (factsOf call past) c

/-- The call began as `c₀`, and its facts are those of its story and then those of its end. -/
def Ended (past : List Fact) (call : CallId) (c₀ : Caller) : Prop :=
  ∃ c own fs, Story call c₀ own c ∧ c.Ends call fs ∧ factsOf call past = own ++ fs

/-- Every caller began and came to where it is by its own facts. -/
def Told (past : List Fact) (s : Service) : Prop :=
  ∀ call c, s.callers.get? call = some c → ∃ c₀, c₀.Begun ∧ Working past s call c₀ c

/-- A permit that is out in the name of the caller is one it has not yet tried to give back. -/
def Caller.Keeps (c : Caller) (call : CallId) (d : Dict Key Slot) : Prop :=
  ∀ key g, g ∈ holdingsAt d key → g.grantee = call → ∃ m ∈ c.left, c.keyOf m.1 = key ∧
    m.2 = g.serial

def Kept (s : Service) : Prop := ∀ call c, s.callers.get? call = some c → c.Keeps call s.slots

/-- Another call returned a permit of the call. -/
def Robbed (past : List Fact) (call : CallId) : Prop :=
  ∃ f ∈ past, f.call ≠ call ∧ ∃ key g party, f.deed = .returned key g party ∧ g.grantee = call

/-- A caller that could not give back a permit was robbed. -/
def Excused (past : List Fact) (s : Service) : Prop :=
  ∀ call c failed left e, s.callers.get? call = some c → c.stage = .undoing failed left (some e) →
    Robbed past call

/-- A permit taken is kept track of, and a member that was tried is out no more. -/
theorem Caller.Advance.keepsPermits {past : List Fact} {call : CallId} {d d' : Dict Key Slot}
    {c c' : Caller} {fs : List Fact} (step : c.Advance call d fs c') (hledger : Ledger past d)
    (entries : Entries d fs d') (hk : c.Keeps call d) : c'.Keeps call d' := by
  intro key g hg hgrantee
  have hmem := entries.mem_holdings hg
  -- where nothing is granted, the permit was out before
  have hold (hnone : ∀ f ∈ fs, f.permit? = none) :
      g ∈ holdingsAt d key ∧ ∃ m ∈ c.left, c.keyOf m.1 = key ∧ m.2 = g.serial := by
    rcases hmem with hout | ⟨f, hf, -, ticket, party, budget, hdeed⟩
    · exact ⟨hout, hk key g hout hgrantee⟩
    · have hno := hnone f hf
      rw [Fact.permit?, hdeed] at hno
      cases hno
  cases step with
  | opened =>
    exact (hold (by simp [Fact.permit?])).2
  | queued stage | gaveUp stage =>
    obtain ⟨-, m, hm, hkey, hserial⟩ := hold (by simp [Fact.permit?])
    simp only [left, stage] at hm
    exact ⟨m, hm, hkey, hserial⟩
  | @granted id _ _ _ g' told stage tells =>
    rcases hmem with hout | ⟨f, hf, -, ticket, party, budget, hdeed⟩
    · obtain ⟨m, hm, hkey, hserial⟩ := hk key g hout hgrantee
      simp only [left, stage] at hm
      exact ⟨m, List.mem_append_left _ hm, hkey, hserial⟩
    · rcases List.mem_cons.1 hf with rfl | hf
      · cases hdeed
        exact ⟨(id, g.serial), List.mem_append_right _ List.mem_cons_self, rfl, rfl⟩
      · obtain ⟨-, _, _, _, htold⟩ := tells f hf
        rw [htold] at hdeed
        cases hdeed
  | @returned failed member left' error g' told stage serial tells =>
    obtain ⟨hout, hne⟩ := hledger.mem_holdings_returned (fun f hf => (tells f hf).silent) entries hg
    obtain ⟨m, hm, hkey, hserial⟩ := hk key g hout hgrantee
    simp only [left, stage] at hm
    rcases List.mem_cons.1 hm with rfl | hm
    · exact absurd (hserial.symm.trans serial.symm) (hne hkey.symm)
    · exact ⟨m, hm, hkey, hserial⟩
  | @notReturned failed member left' error e stage missing =>
    obtain ⟨hout, m, hm, hkey, hserial⟩ := hold (by simp [Fact.permit?])
    simp only [left, stage] at hm
    rcases List.mem_cons.1 hm with rfl | hm
    · have hhere : g ∈ holdingsAt d (c.keyOf m.1) := hkey ▸ hout
      exact absurd hserial.symm (missing g hhere)
    · exact ⟨m, hm, hkey, hserial⟩

/-- A caller whose permit is missing was robbed, since it tries to return each permit once. -/
theorem Story.robbed {past : List Fact} {call : CallId} {c₀ c : Caller} {d : Dict Key Slot}
    {failed : ResourceId} {member : ResourceId × Nat} {left : List (ResourceId × Nat)}
    {error : Option LockError} (h : Story call c₀ (factsOf call past) c) (hb : c₀.Begun)
    (hledger : Ledger past d) (stage : c.stage = .undoing failed (member :: left) error)
    (missing : ∀ g ∈ holdingsAt d (c.keyOf member.1), g.serial ≠ member.2) : Robbed past call := by
  obtain ⟨tried, htaken, hreturned⟩ := h.tried hb
  simp only [Caller.left, stage] at htaken
  have hmember : member ∈ c.taken := by
    rw [htaken]
    exact List.mem_append_right _ List.mem_cons_self
  obtain ⟨ticket, g, party, budget, hgranted, hserial⟩ := h.granted_of_mem_taken hb hmember
  rw [mem_factsOf] at hgranted
  rcases hledger.out_or_returned hgranted.1 with hout | ⟨f, hf, party', hdeed⟩
  · exact absurd hserial (missing g hout)
  · refine ⟨f, hf, fun hown => ?_, _, g, party', hdeed, hledger.grantee_of_granted hgranted.1⟩
    -- had the call returned it, it would have tried the member twice
    obtain ⟨m, hm, hkey⟩ := hreturned f (mem_factsOf.2 ⟨hf, hown⟩) _ g party' hdeed
    have hmem : m ∈ c.taken := by
      rw [htaken]
      exact List.mem_append_left _ hm
    have heq := h.taken_unique hb hmem hmember hkey
    have hnodup := h.nodup_taken hb
    rw [htaken, List.nodup_append] at hnodup
    exact hnodup.2.2 m hm member List.mem_cons_self heq

namespace Step

variable {past : List Fact} {s : Service} {call : CallId} {t : Turn}

theorem working_or_ended (h : Step past s call t) {x : CallId} {c₀ c : Caller}
    (hw : Working past s x c₀ c) :
    (∃ c', Working (past ++ t.facts) t.service x c₀ c') ∨
      Gone (past ++ t.facts) t.service x ∧ Ended (past ++ t.facts) x c₀ := by
  by_cases hx : call = x
  · subst hx
    cases h with
    | visit unused | engage unused =>
      cases hw.working.symm.trans unused.idle
    | @advance c₁ c' fs d working step entries =>
      cases hw.working.symm.trans working
      refine .inl ⟨c', Dict.get?_insert_self _ _ _, ?_⟩
      rw [factsOf_append_self step.mem_call]
      exact hw.story.advance step
    | @finish c₁ fs d working ends entries =>
      cases hw.working.symm.trans working
      refine .inr ⟨⟨?_, Dict.get?_erase_self _ _⟩, c, _, fs, hw.story, ends, ?_⟩
      · obtain ⟨f, hf⟩ := ends.exists_mem
        exact ⟨f, List.mem_append_right _ hf, ends.mem_call f hf⟩
      · exact factsOf_append_self ends.mem_call
  · refine .inl ⟨c, ?_, ?_⟩
    · rw [h.callers_of_ne hx, hw.working]
    · rw [factsOf_append_of_ne fun f hf => by rw [h.mem_call f hf]; exact hx]
      exact hw.story

theorem working_or_gone (h : Step past s call t) {x : CallId} {c₀ c : Caller}
    (hw : Working past s x c₀ c) :
    (∃ c', Working (past ++ t.facts) t.service x c₀ c') ∨ Gone (past ++ t.facts) t.service x :=
  (h.working_or_ended hw).imp_right And.left

theorem told (h : Step past s call t) (ht : Told past s) : Told (past ++ t.facts) t.service := by
  intro x c' hc'
  cases hc : s.callers.get? x with
  | some c =>
    obtain ⟨c₀, hbegun, hw⟩ := ht x c hc
    rcases h.working_or_gone hw with ⟨c'', hw'⟩ | hgone
    · cases hw'.working.symm.trans hc'
      exact ⟨c₀, hbegun, hw'⟩
    · rw [hgone.idle] at hc'
      cases hc'
  | none =>
    by_cases hx : call = x
    · subst hx
      cases h with
      | visit _ visit =>
        rw [visit.callers, hc] at hc'
        cases hc'
      | @engage c unused begun =>
        rw [Dict.get?_insert_self] at hc'
        cases hc'
        refine ⟨c', begun, Dict.get?_insert_self _ _ _, ?_⟩
        have hnone : factsOf call (past ++ []) = [] := by
          rw [List.append_nil, factsOf, List.filter_eq_nil_iff]
          simpa using unused.silent
        rw [hnone]
        exact .begun
      | advance working | finish working =>
        rw [hc] at working
        cases working
    · rw [h.callers_of_ne hx, hc] at hc'
      cases hc'

theorem kept (h : Step past s call t) (hledger : Ledger past s.slots) (hk : Kept s) :
    Kept t.service := by
  intro x c' hc'
  by_cases hx : call = x
  · subst hx
    cases h with
    | visit unused visit =>
      rw [visit.callers, unused.idle] at hc'
      cases hc'
    | engage unused =>
      -- nothing was granted to a call that did nothing
      intro key g hg hgrantee
      obtain ⟨p, m, ticket, party, budget, rfl, -⟩ := hledger.granted_of_out hg
      exact absurd hgrantee (unused.silent _ (List.mem_append_right _ List.mem_cons_self))
    | advance working step entries =>
      rw [Dict.get?_insert_self] at hc'
      cases hc'
      exact step.keepsPermits hledger entries (hk call _ working)
    | finish =>
      rw [Dict.get?_erase_self] at hc'
      cases hc'
  · intro key g hg hgrantee
    rw [h.callers_of_ne hx] at hc'
    have hother : g.grantee ≠ call := fun heq => hx (heq.symm.trans hgrantee)
    exact hk x c' hc' key g (h.entries.mem_holdings_of_ne h.mem_call hg hother) hgrantee

theorem excused (h : Step past s call t) (hledger : Ledger past s.slots) (ht : Told past s)
    (he : Excused past s) : Excused (past ++ t.facts) t.service := by
  intro x c' failed left e hc' hstage
  have hlonger (hr : Robbed past x) : Robbed (past ++ t.facts) x := by
    obtain ⟨f, hf, hrobbed⟩ := hr
    exact ⟨f, List.mem_append_left _ hf, hrobbed⟩
  refine hlonger ?_
  by_cases hx : call = x
  · subst hx
    cases h with
    | visit unused visit =>
      rw [visit.callers, unused.idle] at hc'
      cases hc'
    | engage _ begun =>
      rw [Dict.get?_insert_self] at hc'
      cases hc'
      cases hstage.symm.trans begun.stage
    | finish =>
      rw [Dict.get?_erase_self] at hc'
      cases hc'
    | @advance c _ fs d working step entries =>
      rw [Dict.get?_insert_self] at hc'
      cases hc'
      cases step with
      | opened => exact he call _ failed left e working hstage
      | queued | granted | gaveUp => cases hstage
      | returned stage =>
        cases hstage
        exact he call c _ _ e working stage
      | @notReturned _ member left' error e' stage missing =>
        cases error with
        | some e₀ => exact he call c _ _ e₀ working stage
        | none =>
          obtain ⟨c₀, hbegun, hw⟩ := ht call c working
          exact hw.story.robbed hbegun hledger stage missing
  · rw [h.callers_of_ne hx] at hc'
    exact he x c' failed left e hc' hstage

end Step

end FairLocks
