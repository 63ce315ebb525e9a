import FairLocks.Proofs.Moments

/-!
# One call in a history

A call for permits that passes its checks is at work until it is answered, and its facts tell its
story from the request on. A call that is refused does nothing but say so.
-/
namespace FairLocks

set_option autoImplicit false

/-- The type, the resources and the party of a request for permits. -/
def Request.seeks? : Request → Option (String × List ResourceId × Party)
  | lock typeName id party => some (typeName, [id], party)
  | lockMany typeName ids party => some (typeName, ids, party)
  | tryLock typeName id party _ => some (typeName, [id], party)
  | tryLockMany typeName ids party _ => some (typeName, ids, party)
  | tryLockManyDetailed typeName ids party _ => some (typeName, ids, party)
  | _ => none

/-- What a call that makes the request is after, in a service that spends timeouts in this way. -/
def Request.aim (spending : GroupTimeout) : Request → Goal
  | tryLock _ _ _ timeout => .attempt timeout
  | tryLockMany _ _ _ timeout => .allOrNone timeout spending false
  | tryLockManyDetailed _ _ _ timeout => .allOrNone timeout spending true
  | _ => .hold

/-- The timeout of a timed call for several resources. -/
def Request.manyTimeout? : Request → Option Nat
  | tryLockMany _ _ _ timeout => some timeout
  | tryLockManyDetailed _ _ _ timeout => some timeout
  | _ => none

theorem Request.aim_of_manyTimeout {request : Request} {timeout : Nat}
    (h : request.manyTimeout? = some timeout) (spending : GroupTimeout) :
    ∃ detailed, request.aim spending = .allOrNone timeout spending detailed := by
  cases request with
  | tryLockMany =>
    cases h
    exact ⟨false, rfl⟩
  | tryLockManyDetailed =>
    cases h
    exact ⟨true, rfl⟩
  | lock | lockMany | tryLock | unlock | unlockMany | createType | findType | typeNames
  | groupTimeout | slotState | isLocked | slotCount | evictIdle | listen | removeListener => cases h

theorem Service.submit_of_seeks {request : Request} {typeName : String} {ids : List ResourceId}
    {party : Party} (h : request.seeks? = some (typeName, ids, party)) (s : Service)
    (call : CallId) :
    s.submit call request = s.engage call typeName ids party (request.aim s.groupTimeout) := by
  cases request with
  | lock | lockMany | tryLock | tryLockMany | tryLockManyDetailed =>
    cases h
    rfl
  | createType | findType | typeNames | groupTimeout | unlock | unlockMany | slotState | isLocked |
    slotCount | evictIdle | listen | removeListener => cases h

/-- What is told to listeners answers nobody. -/
theorem replies_of_tells {told : List Fact} {call : CallId} (h : ∀ f ∈ told, f.Tells call) :
    told.filterMap Fact.reply? = [] := by
  refine List.filterMap_eq_nil_iff.2 fun f hf => ?_
  obtain ⟨-, _, _, _, hdeed⟩ := h f hf
  simp [Fact.reply?, hdeed]

theorem answered_of_mem_replies {fs : List Fact} {call : CallId} {reply : Reply}
    (h : (call, reply) ∈ fs.filterMap Fact.reply?) : ⟨call, .answered reply⟩ ∈ fs := by
  obtain ⟨⟨x, deed⟩, hf, hreply⟩ := List.mem_filterMap.1 h
  cases deed with
  | answered r =>
    cases hreply
    exact hf
  | registered | opened | queued | granted | gaveUp | returned | notReturned | rolledBack | evicted
  | announced =>
    cases hreply

namespace Service

variable {request : Request}

theorem replies_giveBackAll (s : Service) (call : CallId) (typeName : String) (party : Party)
    (ids : List ResourceId) :
    ∃ reply, (s.giveBackAll call typeName party ids).facts.filterMap Fact.reply? =
      [(call, reply)] := by
  induction ids generalizing s with
  | nil => exact ⟨_, rfl⟩
  | cons id ids ih =>
    unfold giveBackAll
    split
    · exact ⟨_, rfl⟩
    · rename_i t ht
      obtain ⟨_, _, _, told, -, -, tells, rfl⟩ := giveBack_ok ht
      obtain ⟨reply, hreply⟩ := ih { s with slots := _ }
      refine ⟨reply, ?_⟩
      rw [Turn.facts_andThen, List.filterMap_append, hreply, List.filterMap_cons_none rfl,
        replies_of_tells tells]
      rfl

/-- A request for no permits is answered at once, and once. -/
theorem replies_submit (h : request.seeks? = none) (s : Service) (call : CallId) :
    ∃ reply, (s.submit call request).facts.filterMap Fact.reply? = [(call, reply)] := by
  have hunlock (typeName : String) (ids : List ResourceId) (party : Party) :
      ∃ reply, (s.unlockAll call typeName ids party).facts.filterMap Fact.reply? =
        [(call, reply)] := by
    unfold unlockAll
    split
    · exact ⟨_, rfl⟩
    · exact replies_giveBackAll s call typeName party _
  cases request with
  | lock | lockMany | tryLock | tryLockMany | tryLockManyDetailed => cases h
  | unlock | unlockMany => exact hunlock _ _ _
  | createType type =>
    simp only [submit, createType]
    split <;> exact ⟨_, rfl⟩
  | evictIdle | listen | removeListener | findType | typeNames | groupTimeout | slotState | isLocked
  | slotCount =>
    exact ⟨_, rfl⟩

theorem exists_answer (h : request.seeks? = none) (s : Service) (call : CallId) :
    ∃ reply, ⟨call, .answered reply⟩ ∈ (s.submit call request).facts := by
  obtain ⟨reply, hreply⟩ := replies_submit h s call
  refine ⟨reply, answered_of_mem_replies ?_⟩
  rw [hreply]
  exact List.mem_cons_self

/-- A request for no permits starts no caller. -/
theorem callers_of_visit (h : request.seeks? = none) (s : Service) (call : CallId) :
    (s.submit call request).service.callers = s.callers := by
  cases request with
  | lock | lockMany | tryLock | tryLockMany | tryLockManyDetailed => cases h
  | unlock | unlockMany => exact (Visit.unlockAll s call _ _ _).callers
  | createType t => exact (Visit.createType s call t).callers
  | evictIdle | listen | removeListener | findType | typeNames | groupTimeout | slotState | isLocked
  | slotCount => rfl

end Service

/-- The resources on which the call was granted permits, in order. -/
def grantedTo (call : CallId) (facts : List Fact) : List Key :=
  ((factsOf call facts).filterMap Fact.permit?).map Prod.fst

theorem grantedTo_append (call : CallId) (fs gs : List Fact) :
    grantedTo call (fs ++ gs) = grantedTo call fs ++ grantedTo call gs := by
  simp [grantedTo, factsOf]

theorem mem_grantedTo {call : CallId} {fs : List Fact} {key : Key} {f : Fact} (hf : f ∈ fs)
    (hcall : f.call = call) (hgrants : f.grants key = true) : key ∈ grantedTo call fs := by
  obtain ⟨x, deed⟩ := f
  cases deed with
  | granted k ticket g party budget =>
    have hkey : k = key := of_decide_eq_true hgrants
    refine List.mem_map.2 ⟨(k, g.serial), List.mem_filterMap.2 ⟨_, mem_factsOf.2 ⟨hf, hcall⟩, rfl⟩,
      hkey⟩
  | registered | opened | queued | gaveUp | returned | notReturned | rolledBack | evicted
  | announced | answered => cases hgrants

/-- A call is granted at most one permit on each resource. -/
theorem Story.nodup_grantedTo {past : List Fact} {call : CallId} {c₀ c : Caller}
    (h : Story call c₀ (factsOf call past) c) (hb : c₀.Begun) : (grantedTo call past).Nodup := by
  rw [grantedTo, h.permits_eq hb, Caller.permits, List.map_map]
  refine (List.nodup_map_iff_inj_on (h.nodup_taken hb)).2 fun m hm m' hm' heq => ?_
  exact h.taken_unique hb hm hm' heq

/-- The goal of a timed call for several resources. -/
def Goal.AllOrNone (goal : Goal) : Prop :=
  ∃ timeout spending detailed, goal = .allOrNone timeout spending detailed

namespace Story

variable {call : CallId} {c₀ c : Caller} {own : List Fact}

/-- Only a timed call for several resources gives back what it took. -/
theorem allOrNone_of_undoing (h : Story call c₀ own c) (hb : c₀.Begun) {failed : ResourceId}
    {left : List (ResourceId × Nat)} {error : Option LockError}
    (stage : c.stage = .undoing failed left error) : c₀.goal.AllOrNone := by
  induction h generalizing failed left error with
  | begun => cases stage.symm.trans hb.stage
  | advance before step ih =>
    cases step with
    | opened => exact ih stage
    | queued | granted => cases stage
    | gaveUp _ group => exact ⟨_, _, _, before.keeps.2.2.1.symm.trans group⟩
    | returned stage' | notReturned stage' => exact ih stage'

theorem not_answered (h : Story call c₀ own c) (reply : Reply) : ⟨call, .answered reply⟩ ∉ own := by
  induction h with
  | begun => exact List.not_mem_nil
  | advance _ step ih =>
    intro hf
    rcases List.mem_append.1 hf with hf | hf
    · exact ih hf
    · obtain ⟨f, told, rfl, tells⟩ := step.exists_head
      rcases List.mem_cons.1 hf with rfl | hf
      · cases step
      · obtain ⟨-, _, _, _, hdeed⟩ := tells _ hf
        cases hdeed

end Story

theorem Leads.working_or_ended {who : CallId → Prop} {past past' : List Fact} {s s' : Service}
    {call : CallId} {c₀ c : Caller} (h : Leads who past s past' s')
    (hw : Working past s call c₀ c) :
    (∃ c', Working past' s' call c₀ c') ∨ Gone past' s' call ∧ Ended past' call c₀ := by
  induction h with
  | refl => exact .inl ⟨c, hw⟩
  | @step _ _ x t _ _ step ih =>
    rcases ih with ⟨c', hw'⟩ | ⟨hgone, c', own, fs, hstory, hends, hown⟩
    · exact step.working_or_ended hw'
    · refine .inr ⟨step.gone hgone, c', own, fs, hstory, hends, ?_⟩
      have hne := step.ne_of_gone hgone
      rw [factsOf_append_of_ne fun f hf => by rw [step.mem_call f hf]; exact hne, hown]
  | pass _ _ ih | doze _ _ ih =>
    rcases ih with ⟨c', hw'⟩ | ⟨hgone, hended⟩
    · exact .inl ⟨c', hw'.working, hw'.story⟩
    · exact .inr ⟨⟨hgone.acted, hgone.idle⟩, hended⟩

theorem Leads.working_or_gone {who : CallId → Prop} {past past' : List Fact} {s s' : Service}
    {call : CallId} {c₀ c : Caller} (h : Leads who past s past' s')
    (hw : Working past s call c₀ c) :
    (∃ c', Working past' s' call c₀ c') ∨ Gone past' s' call :=
  (h.working_or_ended hw).imp_right And.left

/-- At a moment of the history the call begins, as `c₀`. -/
structure Engaged (h : History) (call : CallId) (c₀ : Caller) (past : List Fact) (s : Service) :
    Prop where
  begun : c₀.Begun
  orderly : Orderly past s
  silent : ∀ f ∈ past, f.call ≠ call
  working : Working past s call c₀ c₀
  leads : Leads (fun _ => True) past s h.facts h.service

namespace History

variable {h : History} {before after : List Action} {call : CallId} {request : Request}
  {typeName : String} {ids : List ResourceId} {party : Party} {goal : Goal}

/-- A call that passes its checks begins before its first resource. -/
theorem engaged_as {type : ResourceType} (ha : h.actions = before ++ .submit call request :: after)
    (hrequest : (h.start.run before).service.submit call request =
      (h.start.run before).service.engage call typeName ids party goal)
    (hvalid : (h.start.run before).service.resolveFor typeName party = .ok type) :
    type.name = typeName ∧ ∃ past s, Engaged h call
      { type, party, goal, began := (h.start.run before).service.clock, rest := distinct ids,
        taken := [], stage := .next } past s := by
  have ha' : h.actions = (before ++ [.submit call request]) ++ after := by simp [ha]
  have hu := unused ha
  have hsubmit := hrequest
  simp only [Service.engage, hvalid] at hsubmit
  have hfacts : (h.upTo ha').facts = (h.upTo ha).facts := by
    simp only [facts, upTo, Service.facts_run_snoc, Service.act, hsubmit, List.append_nil]
  have hservice : (h.upTo ha').service =
      ((h.start.run before).service.submit call request).service := Service.service_run_snoc _ _ _
  obtain ⟨hname, hpermits⟩ := (h.upTo ha).orderly.registry _ _ (Service.resolveFor_ok hvalid)
  have hsilent : ∀ f ∈ (h.upTo ha').facts, f.call ≠ call := by
    rw [hfacts]
    exact hu.silent
  refine ⟨hname, _, _, ⟨rfl, rfl, nodup_distinct ids, hpermits⟩, orderly _, hsilent,
    ⟨?_, ?_⟩, leads ha'⟩
  · rw [hservice, hsubmit]
    exact Dict.get?_insert_self _ _ _
  · rw [factsOf, List.filter_eq_nil_iff.2 fun f hf => by simpa using hsilent f hf]
    exact .begun

theorem engaged {type : ResourceType} (ha : h.actions = before ++ .submit call request :: after)
    (hrequest : (h.start.run before).service.submit call request =
      (h.start.run before).service.engage call typeName ids party goal)
    (hvalid : (h.start.run before).service.resolveFor typeName party = .ok type) :
    type.name = typeName ∧ ∃ c₀ past s, Engaged h call c₀ past s ∧ c₀.type = type ∧ c₀.goal = goal ∧
      c₀.itinerary = distinct ids := by
  obtain ⟨hname, past, s, he⟩ := engaged_as ha hrequest hvalid
  exact ⟨hname, _, past, s, he, rfl, rfl, rfl⟩

/-- A call that has been answered is no longer at work. -/
theorem gone_of_answered {reply : Reply} (hf : ⟨call, .answered reply⟩ ∈ h.facts) :
    Gone h.facts h.service call := by
  obtain ⟨past, rest, hfacts⟩ := List.append_of_mem hf
  have hstart : Leads (fun _ => True) [] h.start h.facts h.service :=
    @History.leads h [] h.actions rfl
  obtain ⟨p, s, x, t, before, after, -, hstep, ht, -, hlater⟩ := hstart.exists_step hfacts
  have hmem : (⟨call, .answered reply⟩ : Fact) ∈ t.facts := by
    rw [ht]
    exact List.mem_append_right _ List.mem_cons_self
  cases hstep.mem_call _ hmem
  refine (hlater.gone ⟨⟨_, List.mem_append_right _ hmem, rfl⟩, ?_⟩).1
  cases hstep with
  | visit unused visit => rw [visit.callers, unused.idle]
  | engage => exact absurd hmem List.not_mem_nil
  | finish => exact Dict.get?_erase_self _ _
  | advance working step =>
    cases step with
    | opened | queued | gaveUp | notReturned => cases List.mem_singleton.1 hmem
    | granted _ tells | returned _ _ tells =>
      rcases List.mem_cons.1 hmem with hmem | hmem
      · cases hmem
      · obtain ⟨-, _, _, _, hdeed⟩ := tells _ hmem
        cases hdeed

/-- A call that is answered by its request does nothing more. -/
theorem factsOf_at_once {reply : Reply} (ha : h.actions = before ++ .submit call request :: after)
    (hf : ⟨call, .answered reply⟩ ∈ ((h.start.run before).service.submit call request).facts) :
    factsOf call h.facts = ((h.start.run before).service.submit call request).facts := by
  have ha' : h.actions = (before ++ [.submit call request]) ++ after := by simp [ha]
  have hu := unused ha
  have hstep : Step (h.upTo ha).facts _ call ((h.start.run before).service.submit call request) :=
    .submit (h.upTo ha).orderly.registry hu request
  have hfacts : (h.upTo ha').facts =
      (h.upTo ha).facts ++ ((h.start.run before).service.submit call request).facts :=
    Service.facts_run_snoc _ _ _
  have hanswered : ⟨call, .answered reply⟩ ∈ (h.upTo ha').facts := by
    rw [hfacts]
    exact List.mem_append_right _ hf
  obtain ⟨-, ⟨fs, hmore, hothers⟩, -⟩ := (leads ha').gone (gone_of_answered hanswered)
  have hnone : factsOf call (h.upTo ha).facts = [] := by
    rw [factsOf, List.filter_eq_nil_iff]
    simpa using hu.silent
  rw [hmore, factsOf_append_of_ne hothers, hfacts, factsOf_append_self hstep.mem_call, hnone,
    List.nil_append]

/-- A call that is refused leaves nothing but the refusal. -/
theorem of_refused {e : LockError} (ha : h.actions = before ++ .submit call request :: after)
    (hrequest : (h.start.run before).service.submit call request =
      (h.start.run before).service.engage call typeName ids party goal)
    (hrefused : (h.start.run before).service.resolveFor typeName party = .error e) {f : Fact}
    (hf : f ∈ h.facts) (hcall : f.call = call) : f.deed = .answered (.error e) := by
  have hfacts : ((h.start.run before).service.submit call request).facts =
      [⟨call, .answered (.error e)⟩] := by
    rw [hrequest, Service.engage, hrefused]
    rfl
  have hmem : f ∈ factsOf call h.facts := mem_factsOf.2 ⟨hf, hcall⟩
  rw [factsOf_at_once ha (by rw [hfacts]; exact List.mem_cons_self), hfacts] at hmem
  rw [List.mem_singleton.1 hmem]

/-- What a call for permits leaves: a refusal, the story it has had so far, or its story and its
end. -/
theorem life_of_seeks (ha : h.actions = before ++ .submit call request :: after)
    (hseeks : request.seeks? = some (typeName, ids, party)) :
    (h.service.callers.get? call = none ∧
      ∃ e, factsOf call h.facts = [⟨call, .answered (.error e)⟩]) ∨
    ∃ c₀ : Caller, c₀.Begun ∧ c₀.type.name = typeName ∧ c₀.party = party ∧
      (∃ spending, c₀.goal = request.aim spending) ∧ c₀.itinerary = distinct ids ∧
      ((∃ c, Working h.facts h.service call c₀ c) ∨
        Gone h.facts h.service call ∧ Ended h.facts call c₀) := by
  have hengage := Service.submit_of_seeks hseeks (h.start.run before).service call
  cases hvalid : (h.start.run before).service.resolveFor typeName party with
  | error e =>
    have hfacts : ((h.start.run before).service.submit call request).facts =
        [⟨call, .answered (.error e)⟩] := by
      rw [hengage, Service.engage, hvalid]
      rfl
    have hown := factsOf_at_once ha (by rw [hfacts]; exact List.mem_cons_self)
    rw [hfacts] at hown
    have hmem : ⟨call, .answered (.error e)⟩ ∈ factsOf call h.facts := by
      rw [hown]
      exact List.mem_cons_self
    exact .inl ⟨(gone_of_answered (mem_factsOf.1 hmem).1).idle, e, hown⟩
  | ok type =>
    obtain ⟨hname, past, s, he⟩ := engaged_as ha hengage hvalid
    exact .inr ⟨_, he.begun, hname, rfl, ⟨_, rfl⟩, rfl, he.leads.working_or_ended he.working⟩

/-- Who is at work has its type, its party, what it is after and its way from its request, and began
when that was made. -/
theorem keeps_request (ha : h.actions = before ++ .submit call request :: after)
    (hseeks : request.seeks? = some (typeName, ids, party)) {c : Caller}
    (working : h.service.callers.get? call = some c) :
    c.type.name = typeName ∧ c.party = party ∧
      c.goal = request.aim (h.start.run before).service.groupTimeout ∧
      c.began = (h.start.run before).service.clock ∧ c.itinerary = distinct ids := by
  have hengage := Service.submit_of_seeks hseeks (h.start.run before).service call
  cases hvalid : (h.start.run before).service.resolveFor typeName party with
  | error e =>
    have hanswer : ⟨call, .answered (.error e)⟩ ∈
        ((h.start.run before).service.act (.submit call request)).facts := by
      rw [Service.act, hengage, Service.engage, hvalid]
      exact List.mem_cons_self
    cases working.symm.trans (gone_of_answered (mem_facts_of_act ha hanswer)).idle
  | ok type =>
    obtain ⟨hname, past, s, he⟩ := engaged_as ha hengage hvalid
    rcases he.leads.working_or_gone he.working with ⟨c', hw⟩ | hgone
    · cases working.symm.trans hw.working
      obtain ⟨htype, hparty, hgoal, hway⟩ := hw.story.keeps
      exact ⟨by rw [htype, hname], hparty, hgoal, hw.story.began_eq, hway⟩
    · cases working.symm.trans hgone.idle

/-- A call for one resource that is answered that it could not be had waited for it and gave up. -/
theorem ended_tryLock {id : ResourceId} {timeout : Nat}
    (ha : h.actions = before ++ .submit call (.tryLock typeName id party timeout) :: after)
    (hanswered : ⟨call, .answered (.ok (.flag false))⟩ ∈ h.facts) :
    ∃ c₀ c own id' ticket budget deadline, c₀.Begun ∧ Story call c₀ own c ∧
      c.stage = .waiting id' ticket budget deadline ∧ c.taken = [] ∧
      factsOf call h.facts = own ++ [⟨call, .gaveUp (c.keyOf id') ticket c.party budget⟩,
        ⟨call, .answered (.ok (.flag false))⟩] := by
  have hmine : ⟨call, .answered (.ok (.flag false))⟩ ∈ factsOf call h.facts :=
    mem_factsOf.2 ⟨hanswered, rfl⟩
  rcases life_of_seeks ha rfl with ⟨-, e, hfacts⟩ |
    ⟨c₀, hb, -, -, ⟨spending, hgoal⟩, hway, ⟨c, hw⟩ | ⟨-, c, own, fs, hstory, hends, hfacts⟩⟩
  · rw [hfacts] at hmine
    cases List.mem_singleton.1 hmine
  · exact absurd hmine (hw.story.not_answered _)
  · have hcgoal : c.goal = .attempt timeout := hstory.keeps.2.2.1.trans hgoal
    have hsingle : ¬ c₀.goal.AllOrNone := by
      rw [hgoal]
      rintro ⟨_, _, _, heq⟩
      cases heq
    have hend : ⟨call, .answered (.ok (.flag false))⟩ ∈ fs := by
      rw [hfacts] at hmine
      exact (List.mem_append.1 hmine).resolve_left (hstory.not_answered _)
    cases hends with
    | success =>
      rw [hcgoal] at hend
      cases List.mem_singleton.1 hend
    | @gaveUp id' ticket budget deadline stage =>
      -- its only resource is the one it waited for
      have htaken : c.taken = [] := by
        have hlength := congrArg List.length (hstory.keeps.2.2.2.trans hway)
        have hone : (distinct [id]).length = 1 := rfl
        rw [Caller.itinerary, Caller.here, stage, hone] at hlength
        simp only [List.length_append, List.length_map, List.length_singleton] at hlength
        exact List.eq_nil_of_length_eq_zero (by omega)
      rw [hcgoal] at hfacts
      exact ⟨c₀, c, own, id', ticket, budget, deadline, hb, hstory, stage, htaken, hfacts⟩
    | failed stage | rolledBack stage => exact absurd (hstory.allOrNone_of_undoing hb stage) hsingle

/-- Whoever did something or is at work made a request. -/
theorem exists_submit (hused : ¬ Unused h.facts h.service call) :
    ∃ before request after, h.actions = before ++ .submit call request :: after := by
  obtain ⟨hnew, hunused⟩ := h.isNew.orderly
  have hmem : call ∈ h.actions.filterMap Action.number? := by
    by_contra hmem
    have hstill := (hnew.leads_run h.numbered fun x _ => hunused x).2 call (hunused call) hmem
    exact hused hstill
  obtain ⟨a, ha, hnumber⟩ := List.mem_filterMap.1 hmem
  obtain ⟨before, after, hsplit⟩ := List.append_of_mem ha
  cases a with
  | submit x request =>
    cases hnumber
    exact ⟨before, request, after, hsplit⟩
  | move | pass => cases hnumber

end History

namespace Engaged

variable {h : History} {call : CallId} {c₀ : Caller} {past₁ : List Fact} {s₁ : Service}

/-- Each fact of the call is from a step it takes while it is at work. -/
theorem exists_step (he : Engaged h call c₀ past₁ s₁) {past rest : List Fact} {f : Fact}
    (hfacts : h.facts = past ++ f :: rest) (hcall : f.call = call) :
    ∃ p s c t before after, Orderly p s ∧ Working p s call c₀ c ∧ Step p s call t ∧
      t.facts = before ++ f :: after ∧ past = p ++ before ∧
      Leads (fun _ => True) (p ++ t.facts) t.service h.facts h.service := by
  -- the fact is none of those before the call
  obtain ⟨q, hq⟩ : ∃ q, past = past₁ ++ q := by
    obtain ⟨fs, hfs⟩ := he.leads.exists_append
    rw [hfs] at hfacts
    rcases List.append_eq_append_iff.1 hfacts with ⟨q, hq, -⟩ | ⟨q, hq, hrest⟩
    · exact ⟨q, hq⟩
    · cases q with
      | nil => exact ⟨[], by simpa using hq.symm⟩
      | cons g q =>
        obtain ⟨rfl, -⟩ := List.cons.inj hrest
        exact absurd hcall
          (he.silent f (by rw [hq]; exact List.mem_append_right _ List.mem_cons_self))
  rw [hq] at hfacts
  obtain ⟨p, s, x, t, before, after, hp, hstep, ht, hpast, hafter⟩ := he.leads.exists_step hfacts
  have hx :
      f.call = x := hstep.mem_call f (by rw [ht]; exact List.mem_append_right _ List.mem_cons_self)
  rw [hcall] at hx
  subst hx
  rcases hp.working_or_gone he.working with ⟨c, hw⟩ | hgone
  · exact ⟨p, s, c, t, before, after, he.orderly.leads hp, hw, hstep, ht, hq.trans hpast, hafter⟩
  · exact absurd rfl (hstep.ne_of_gone hgone)

end Engaged

end FairLocks
