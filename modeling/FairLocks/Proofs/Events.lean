import FairLocks.Proofs.Announcements
import FairLocks.Proofs.Group

/-!
# Events account for permits

Each piece of news is about a resource that its call named, with the owners as that call listed
them. A timed call for several resources brings one when it is answered that it was rolled back, and
only then; a call that got nothing or was refused brings none. Since every permit granted or
returned is news, what two listeners hear over any stretch of a history tells how many permits more
are out after it.
-/
namespace FairLocks

set_option autoImplicit false

/-- The type, the resources and the party of a request to give permits back. -/
def Request.returns? : Request → Option (String × List ResourceId × Party)
  | unlock typeName id party => some (typeName, [id], party)
  | unlockMany typeName ids party => some (typeName, ids, party)
  | _ => none

/-- The request is for several resources within a timeout. -/
def Request.timedGroup : Request → Bool
  | tryLockMany _ _ _ _ => true
  | tryLockManyDetailed _ _ _ _ => true
  | _ => false

/-- The answer to a request for several resources whose call was rolled back. -/
def Request.rolledBack (failed : ResourceId) (released : List ResourceId) : Request → Answer
  | tryLockManyDetailed _ _ _ _ => .outcome (.rolledBack failed released)
  | _ => .flag false

/-- A call that makes the request may bring the news. -/
def Request.MayTell (r : Request) (kind : EventKind) (e : LockEvent) : Prop :=
  ∃ ids party, e.resourceId ∈ ids ∧ e.owners = party.listed ∧
    match kind with
    | .locked => r.seeks? = some (e.typeName, ids, party)
    | .unlocked => r.returns? = some (e.typeName, ids, party) ∨
        r.timedGroup = true ∧ r.seeks? = some (e.typeName, ids, party)
    | .rolledBack => r.timedGroup = true ∧ r.seeks? = some (e.typeName, ids, party)

def LockEvent.key (e : LockEvent) : Key := (e.typeName, e.resourceId)

/-- The resource that the call gave up on. -/
def Fact.missed? (f : Fact) : Option Key :=
  match f.deed with
  | .gaveUp key _ _ _ => some key
  | _ => none

/-- The resource that the caller gave up on, while it gives back what it took before. -/
def Caller.missed (c : Caller) : List Key :=
  match c.stage with
  | .undoing failed _ _ => [c.keyOf failed]
  | _ => []

/-- How many of the events are about the resource. -/
def countAbout (key : Key) (told : List (CallId × EventKind × LockEvent)) : Nat :=
  told.countP fun n => n.2.2.key = key

theorem Fact.Tells.news?_eq {f : Fact} {call : CallId} (h : f.Tells call) : f.news? = none := by
  obtain ⟨-, listener, kind, event, hf⟩ := h
  rw [news?, hf]

theorem filterMap_missed?_tells {call : CallId} {told : List Fact} (h : ∀ f ∈ told, f.Tells call) :
    told.filterMap Fact.missed? = [] := by
  refine List.filterMap_eq_nil_iff.2 fun f hf => ?_
  obtain ⟨-, _, _, _, hdeed⟩ := h f hf
  simp [Fact.missed?, hdeed]

theorem Request.timedGroup_of_aim {r : Request} {spending : GroupTimeout}
    (h : (r.aim spending).AllOrNone) : r.timedGroup = true := by
  obtain ⟨timeout, spending', detailed, h⟩ := h
  cases r with
  | tryLockMany | tryLockManyDetailed => rfl
  | createType | findType | typeNames | groupTimeout | lock | lockMany | unlock | unlockMany
  | tryLock | slotState | isLocked | slotCount | evictIdle | listen | removeListener => cases h

theorem Request.allOrNone_aim {r : Request} (h : r.timedGroup = true) (spending : GroupTimeout) :
    (r.aim spending).AllOrNone := by
  cases r with
  | tryLockMany | tryLockManyDetailed => exact ⟨_, _, _, rfl⟩
  | createType | findType | typeNames | groupTimeout | lock | lockMany | unlock | unlockMany
  | tryLock | slotState | isLocked | slotCount | evictIdle | listen | removeListener => cases h

theorem Request.failure_aim {r : Request} (h : r.timedGroup = true) (spending : GroupTimeout)
    (failed : ResourceId) (released : List ResourceId) :
    (r.aim spending).failure failed released = r.rolledBack failed released := by
  cases r with
  | tryLockMany | tryLockManyDetailed => rfl
  | createType | findType | typeNames | groupTimeout | lock | lockMany | unlock | unlockMany
  | tryLock | slotState | isLocked | slotCount | evictIdle | listen | removeListener => cases h

theorem Request.success_aim {r : Request} (h : r.timedGroup = true) (spending : GroupTimeout)
    (failed : ResourceId) (released : List ResourceId) :
    (r.aim spending).success ≠ r.rolledBack failed released := by
  cases r with
  | tryLockMany
  | tryLockManyDetailed => simp [aim, Goal.success, rolledBack, GroupOutcome.isAcquired]
  | createType | findType | typeNames | groupTimeout | lock | lockMany | unlock | unlockMany
  | tryLock | slotState | isLocked | slotCount | evictIdle | listen | removeListener => cases h

namespace Caller

variable {call : CallId} {d : Dict Key Slot} {c c' : Caller} {fs : List Fact} {f : Fact}
  {kind : EventKind} {e : LockEvent}

theorem Advance.taken_prefix (h : c.Advance call d fs c') : c.taken <+: c'.taken := by
  cases h with
  | granted => exact List.prefix_append _ _
  | opened | queued | gaveUp | returned | notReturned => exact List.prefix_refl _

theorem Advance.missed_eq (h : c.Advance call d fs c') :
    c.missed ++ fs.filterMap Fact.missed? = c'.missed := by
  cases h with
  | opened | queued stage => simp [missed, Fact.missed?, *]
  | granted stage tells =>
    rw [List.filterMap_cons_none rfl, filterMap_missed?_tells tells]
    simp [missed, stage]
  | gaveUp stage => simp [missed, Fact.missed?, stage, keyOf]
  | returned stage serial tells =>
    rw [List.filterMap_cons_none rfl, filterMap_missed?_tells tells]
    simp [missed, stage, keyOf]
  | notReturned stage => simp [missed, Fact.missed?, stage, keyOf]

/-- A caller brings news of the resource it takes, or of one that it gives back. -/
theorem Advance.of_news (h : c.Advance call d fs c') (hf : f ∈ fs)
    (news : f.news? = some (kind, e)) :
    e.typeName = c.type.name ∧ e.owners = c.party.listed ∧
      (kind = .locked ∧ e.resourceId ∈ c'.taken.map Prod.fst ∨
        kind = .unlocked ∧ e.resourceId ∈ c.left.map Prod.fst ∧
          ∃ failed left error, c.stage = .undoing failed left error) := by
  cases h with
  | opened | queued | gaveUp | notReturned =>
    rw [List.mem_singleton.1 hf] at news
    cases news
  | granted stage tells =>
    rcases List.mem_cons.1 hf with rfl | hf
    · cases news
      refine ⟨rfl, rfl, .inl ⟨rfl, ?_⟩⟩
      rw [List.map_append]
      exact List.mem_append_right _ List.mem_cons_self
    · rw [(tells f hf).news?_eq] at news
      cases news
  | returned stage serial tells =>
    rcases List.mem_cons.1 hf with rfl | hf
    · cases news
      refine ⟨rfl, rfl, .inr ⟨rfl, ?_, _, _, _, stage⟩⟩
      simp only [left, stage]
      exact List.mem_cons_self
    · rw [(tells f hf).news?_eq] at news
      cases news

theorem Ends.exists_answered (h : c.Ends call fs) : ∃ reply, ⟨call, .answered reply⟩ ∈ fs := by
  cases h with
  | success | failed => exact ⟨_, List.mem_cons_self⟩
  | gaveUp => exact ⟨_, List.mem_cons_of_mem _ List.mem_cons_self⟩
  | rolledBack => exact ⟨_, List.mem_append_right _ List.mem_cons_self⟩

/-- The end of a caller brings no news but that it was rolled back. -/
theorem Ends.of_news (h : c.Ends call fs) (hf : f ∈ fs) (news : f.news? = some (kind, e)) :
    ∃ failed, c.stage = .undoing failed [] none ∧ kind = .rolledBack ∧ e = c.eventOf failed := by
  cases h with
  | success | failed =>
    rw [List.mem_singleton.1 hf] at news
    cases news
  | gaveUp =>
    rcases List.mem_cons.1 hf with rfl | hf
    · cases news
    · rw [List.mem_singleton.1 hf] at news
      cases news
  | rolledBack stage tells =>
    rcases List.mem_cons.1 hf with rfl | hf
    · cases news
      exact ⟨_, stage, rfl, rfl⟩
    · rcases List.mem_append.1 hf with hf | hf
      · rw [(tells f hf).news?_eq] at news
        cases news
      · rw [List.mem_singleton.1 hf] at news
        cases news

/-- A caller answers by a rollback where it brings the news of one, and else brings none. -/
theorem Ends.newsOf_rolledBack (h : c.Ends call fs) :
    (∃ failed, c.stage = .undoing failed [] none ∧ fs.filterMap Fact.missed? = [] ∧
      (∀ reply, ⟨call, .answered reply⟩ ∈ fs →
        reply = .ok (c.goal.failure failed (c.taken.map Prod.fst))) ∧
      newsOf EventKind.rolledBack.name fs = [(call, .rolledBack, c.eventOf failed)]) ∨
    (∀ f ∈ fs, f.news? = none) ∧
      (∀ reply, ⟨call, .answered reply⟩ ∈ fs →
        reply = .ok c.goal.success ∨ ¬ c.goal.AllOrNone ∨ ∃ e, reply = .error e) := by
  cases h with
  | success =>
    refine .inr ⟨?_, fun reply hreply => ?_⟩
    · intro f hf
      rw [List.mem_singleton.1 hf]
      rfl
    · cases List.mem_singleton.1 hreply
      exact .inl rfl
  | gaveUp _ single =>
    refine .inr ⟨?_, fun reply _ => .inr (.inl ?_)⟩
    · intro f hf
      rcases List.mem_cons.1 hf with rfl | hf
      · rfl
      · rw [List.mem_singleton.1 hf]
        rfl
    · rintro ⟨timeout, spending, detailed, hgoal⟩
      exact single timeout spending detailed hgoal
  | failed =>
    refine .inr ⟨?_, fun reply hreply => ?_⟩
    · intro f hf
      rw [List.mem_singleton.1 hf]
      rfl
    · cases List.mem_singleton.1 hreply
      exact .inr (.inr ⟨_, rfl⟩)
  | @rolledBack failed told stage tells =>
    refine .inl ⟨failed, stage, ?_, fun reply hreply => ?_, ?_⟩
    · rw [List.cons_append, List.filterMap_cons_none rfl, List.filterMap_append,
        filterMap_missed?_tells tells]
      rfl
    · rcases List.mem_cons.1 hreply with hreply | hreply
      · cases hreply
      · rcases List.mem_append.1 hreply with hreply | hreply
        · obtain ⟨-, _, _, _, hdeed⟩ := tells _ hreply
          cases hdeed
        · cases List.mem_singleton.1 hreply
          rfl
    · have hrest : newsOf EventKind.rolledBack.name
          (told ++ [⟨call, .answered (.ok (c.goal.failure failed (c.taken.map Prod.fst)))⟩]) =
            [] := by
        refine newsOf_eq_nil fun f hf => ?_
        rcases List.mem_append.1 hf with hf | hf
        · exact (tells f hf).news?_eq
        · rw [List.mem_singleton.1 hf]
          rfl
      rw [List.cons_append, newsOf_cons, newsOf_single rfl, if_pos rfl, hrest, List.append_nil]
      rfl

end Caller

namespace Story

variable {call : CallId} {c₀ c : Caller} {own : List Fact} {f : Fact} {kind : EventKind}
    {e : LockEvent}

/-- The news of a caller is about resources it took, with its own owners. -/
theorem of_news (h : Story call c₀ own c) (hb : c₀.Begun) (hf : f ∈ own)
    (news : f.news? = some (kind, e)) :
    e.typeName = c₀.type.name ∧ e.owners = c₀.party.listed ∧ e.resourceId ∈ c.taken.map Prod.fst ∧
      (kind = .locked ∨ kind = .unlocked ∧ c₀.goal.AllOrNone) := by
  induction h with
  | begun => exact absurd hf List.not_mem_nil
  | @advance own fs c c' d before step ih =>
    have hmore : (c.taken.map Prod.fst) ⊆ c'.taken.map Prod.fst :=
      (step.taken_prefix.map Prod.fst).subset
    rcases List.mem_append.1 hf with hf | hf
    · obtain ⟨htype, howners, hid, hkind⟩ := ih hf
      exact ⟨htype, howners, hmore hid, hkind⟩
    · obtain ⟨htype, howners, hkind⟩ := step.of_news hf news
      rw [before.keeps.1] at htype
      rw [before.keeps.2.1] at howners
      rcases hkind with ⟨rfl, hid⟩ | ⟨rfl, hid, failed, left, error, stage⟩
      · exact ⟨htype, howners, hid, .inl rfl⟩
      · obtain ⟨tried, htaken, -⟩ := before.tried hb
        refine ⟨htype, howners, hmore ?_, .inr ⟨rfl, before.allOrNone_of_undoing hb stage⟩⟩
        rw [htaken, List.map_append]
        exact List.mem_append_right _ hid

/-- A caller gives up on one resource at most, and then gives back what it took. -/
theorem missed_eq (h : Story call c₀ own c) (hb : c₀.Begun) :
    own.filterMap Fact.missed? = c.missed := by
  induction h with
  | begun => simp [Caller.missed, hb.stage]
  | advance _ step ih => rw [List.filterMap_append, ih, step.missed_eq]

theorem newsOf_rolledBack (h : Story call c₀ own c) (hb : c₀.Begun) :
    newsOf EventKind.rolledBack.name own = [] := by
  refine List.filterMap_eq_nil_iff.2 fun f hf => ?_
  cases hnews : f.news? with
  | none => rfl
  | some n =>
    obtain ⟨kind, e⟩ := n
    obtain ⟨-, -, -, rfl | ⟨rfl, -⟩⟩ := h.of_news hb hf hnews
    · rfl
    · rfl

end Story

namespace Service

variable {s : Service} {call : CallId} {request : Request}

/-- A request that asks for no permit brings news only of permits it gives back. -/
theorem of_news_submit (h : request.seeks? = none) {f : Fact} {kind : EventKind} {e : LockEvent}
    (hf : f ∈ (s.submit call request).facts) (news : f.news? = some (kind, e)) :
    request.MayTell kind e := by
  have hunlock {typeName : String} {ids : List ResourceId} {party : Party}
      (hf : f ∈ (s.unlockAll call typeName ids party).facts) :
      kind = .unlocked ∧ e.typeName = typeName ∧ e.resourceId ∈ ids ∧ e.owners = party.listed := by
    unfold unlockAll at hf
    split at hf
    · rw [List.mem_singleton.1 hf] at news
      cases news
    · rcases mem_giveBackAll (nodup_distinct ids) hf with
        ⟨id, hid, _, _, g, _, -, -, -, rfl⟩ | htold |
        ⟨reply, rfl, -⟩
      · cases news
        exact ⟨rfl, rfl, mem_distinct.1 hid, rfl⟩
      · rw [htold.news?_eq] at news
        cases news
      · cases news
  have hquiet (hnone : f.news? = none) : request.MayTell kind e := by
    rw [hnone] at news
    cases news
  cases request with
  | lock | lockMany | tryLock | tryLockMany | tryLockManyDetailed => cases h
  | unlock | unlockMany =>
    obtain ⟨rfl, rfl, hid, howners⟩ := hunlock hf
    exact ⟨_, _, by simpa using hid, howners, .inl rfl⟩
  | createType type =>
    simp only [submit, createType] at hf
    split at hf
    · exact hquiet (List.mem_singleton.1 hf ▸ rfl)
    · rcases List.mem_cons.1 hf with rfl | hf
      · exact hquiet rfl
      · exact hquiet (List.mem_singleton.1 hf ▸ rfl)
  | evictIdle =>
    rcases List.mem_cons.1 hf with rfl | hf
    · exact hquiet rfl
    · exact hquiet (List.mem_singleton.1 hf ▸ rfl)
  | findType | typeNames | groupTimeout | slotState | isLocked | slotCount | listen
  | removeListener =>
    exact hquiet (List.mem_singleton.1 hf ▸ rfl)

/-- A call whose checks fail leaves nothing but the refusal. -/
theorem facts_of_refused {typeName : String} {ids : List ResourceId} {party : Party} {e : LockError}
    (h : request.seeks? = some (typeName, ids, party) ∨
      request.returns? = some (typeName, ids, party))
    (call : CallId) (hrefused : s.resolveFor typeName party = .error e) :
    (s.submit call request).facts = [⟨call, .answered (.error e)⟩] := by
  rcases h with hseeks | hreturns
  · rw [submit_of_seeks hseeks, engage, hrefused]
    rfl
  · cases request with
    | unlock | unlockMany =>
      cases hreturns
      simp only [submit, unlockAll, hrefused]
      rfl
    | lock | lockMany | tryLock | tryLockMany | tryLockManyDetailed | createType | findType
    | typeNames | groupTimeout | slotState | isLocked | slotCount | evictIdle | listen
    | removeListener =>
      cases hreturns

theorem quiet_of_unlock {typeName : String} {id : ResourceId} {party : Party} {e : LockError}
    (hanswered : ⟨call, .answered (.error e)⟩ ∈ (s.submit call (.unlock typeName id party)).facts)
    {f : Fact}
    (hf : f ∈ (s.submit call (.unlock typeName id party)).facts) : f.news? = none := by
  simp only [submit, unlockAll] at hanswered hf
  split at hf
  · rw [List.mem_singleton.1 hf]
    rfl
  · rename_i type htype
    simp only [htype] at hanswered
    have hone : distinct [id] = [id] := rfl
    rw [hone, giveBackAll] at hanswered hf
    split at hf
    · rw [List.mem_singleton.1 hf]
      rfl
    · rename_i t ht
      obtain ⟨slot, g, slot', told, -, -, htold, rfl⟩ := giveBack_ok ht
      simp only [ht] at hanswered
      -- a permit that is given back is answered otherwise
      rcases List.mem_append.1 hanswered with hmem | hmem
      · rcases List.mem_cons.1 hmem with hmem | hmem
        · cases hmem
        · obtain ⟨-, _, _, _, hdeed⟩ := htold _ hmem
          cases hdeed
      · cases List.mem_singleton.1 hmem

end Service

theorem EventKind.name_inj {kind kind' : EventKind} (h : kind.name = kind'.name) :
    kind = kind' := by
  cases kind <;> cases kind' <;> first | rfl | exact absurd h (by decide)

/-- The events of one kind about a resource are as many as the facts that tell of them. -/
theorem countAbout_newsOf {kind : EventKind} {key : Key} {p : Fact → Bool}
    (hp : ∀ f, p f = true ↔ ∃ e, f.news? = some (kind, e) ∧ e.key = key) (fs : List Fact) :
    countAbout key (newsOf kind.name fs) = fs.countP p := by
  induction fs with
  | nil => rfl
  | cons f fs ih =>
    have hfirst : countAbout key (newsOf kind.name [f]) = if p f = true then 1 else 0 := by
      cases hnews : f.news? with
      | none =>
        have hno : ¬ p f = true := fun hyes => by
          obtain ⟨e, heq, -⟩ := (hp f).1 hyes
          rw [hnews] at heq
          cases heq
        rw [if_neg hno, newsOf_eq_nil fun g hg => List.mem_singleton.1 hg ▸ hnews]
        rfl
      | some n =>
        obtain ⟨kind', e⟩ := n
        rw [newsOf_single hnews]
        by_cases hkind : kind' = kind
        · subst hkind
          have hiff : p f = true ↔ e.key = key := by simp [hp, hnews]
          simp [countAbout, hiff]
        · have hno : ¬ p f = true := fun hyes => by
            obtain ⟨e', heq, -⟩ := (hp f).1 hyes
            rw [hnews] at heq
            cases heq
            exact hkind rfl
          rw [if_neg fun hname => hkind (EventKind.name_inj hname), if_neg hno]
          rfl
    rw [newsOf_cons, countAbout, List.countP_append, ← countAbout, ← countAbout, ih, hfirst,
      List.countP_cons, Nat.add_comm]

theorem grants_iff {key : Key} (f : Fact) :
    f.grants key = true ↔ ∃ e, f.news? = some (.locked, e) ∧ e.key = key := by
  obtain ⟨call, deed⟩ := f
  cases deed <;> simp [Fact.grants, Fact.news?, LockEvent.key]

theorem returns_iff {key : Key} (f : Fact) :
    f.returns key = true ↔ ∃ e, f.news? = some (.unlocked, e) ∧ e.key = key := by
  obtain ⟨call, deed⟩ := f
  cases deed <;> simp [Fact.returns, Fact.news?, LockEvent.key]

namespace History

variable {h : History} {before after : List Action} {call : CallId} {request : Request}
  {typeName : String} {ids : List ResourceId} {party : Party}

/-- Each piece of news is what its call may tell. -/
theorem mayTell_of_news {f : Fact} (hf : f ∈ h.facts) {kind : EventKind} {e : LockEvent}
    (news : f.news? = some (kind, e)) : ∃ request, .submit f.call request ∈ h.actions ∧
      request.MayTell kind e := by
  have hused : ¬ Unused h.facts h.service f.call := fun hu => hu.silent f hf rfl
  obtain ⟨before, request, after, ha⟩ := exists_submit hused
  have hown : f ∈ factsOf f.call h.facts := mem_factsOf.2 ⟨hf, rfl⟩
  refine ⟨request, by simp [ha], ?_⟩
  cases hseeks : request.seeks? with
  | none =>
    obtain ⟨reply, hreply⟩ := Service.exists_answer hseeks (h.start.run before).service f.call
    rw [factsOf_at_once ha hreply] at hown
    exact Service.of_news_submit hseeks hown news
  | some wanted =>
    obtain ⟨typeName, ids, party⟩ := wanted
    rcases life_of_seeks ha hseeks with ⟨-, e', hfacts⟩ |
      ⟨c₀, hb, rfl, rfl, ⟨spending, hgoal⟩, hway, hlife⟩
    · rw [hfacts] at hown
      rw [List.mem_singleton.1 hown] at news
      cases news
    have hstory {own : List Fact} {c : Caller} (hstory : Story f.call c₀ own c) (hmem : f ∈ own) :
        request.MayTell kind e := by
      obtain ⟨htype, howners, hid, hkind⟩ := hstory.of_news hb hmem news
      have hids : e.resourceId ∈ ids := by
        rw [← mem_distinct, ← hway, ← hstory.keeps.2.2.2]
        exact List.mem_append_left _ (List.mem_append_left _ hid)
      rw [← htype] at hseeks
      rcases hkind with rfl | ⟨rfl, hall⟩
      · exact ⟨ids, c₀.party, hids, howners, hseeks⟩
      · rw [hgoal] at hall
        exact ⟨ids, c₀.party, hids, howners, .inr ⟨Request.timedGroup_of_aim hall, hseeks⟩⟩
    rcases hlife with ⟨c, hw⟩ | ⟨-, c, own, fs, hlife, hends, hfacts⟩
    · exact hstory hw.story hown
    · rw [hfacts] at hown
      rcases List.mem_append.1 hown with hmem | hmem
      · exact hstory hlife hmem
      · obtain ⟨failed, stage, rfl, rfl⟩ := hends.of_news hmem news
        have hall : (request.aim spending).AllOrNone := hgoal ▸ hlife.allOrNone_of_undoing hb stage
        have hid : failed ∈ ids := by
          rw [← mem_distinct, ← hway, ← hlife.keeps.2.2.2, Caller.itinerary, Caller.here, stage]
          simp
        refine ⟨ids, c₀.party, hid, ?_, Request.timedGroup_of_aim hall, ?_⟩
        · rw [← hlife.keeps.2.1]
          rfl
        · rw [Caller.eventOf, hlife.keeps.1]
          exact hseeks

/-- A timed call for several resources tells of a rollback once if that is its answer, with the one
resource that it gave up on, and else never. -/
theorem newsOf_rolledBack (ha : h.actions = before ++ .submit call request :: after)
    (hseeks : request.seeks? = some (typeName, ids, party)) (hgroup : request.timedGroup = true) :
    ((∀ reply, ⟨call, .answered reply⟩ ∉ h.facts) →
      newsOf EventKind.rolledBack.name (factsOf call h.facts) = []) ∧
    ∀ reply, ⟨call, .answered reply⟩ ∈ h.facts →
      (∃ failed ∈ ids, ∃ released, reply = .ok (request.rolledBack failed released) ∧
        (factsOf call h.facts).filterMap Fact.missed? = [(typeName, failed)] ∧
        newsOf EventKind.rolledBack.name (factsOf call h.facts) =
          [(call, .rolledBack, ⟨typeName, failed, party.listed⟩)]) ∨
      (∀ failed released, reply ≠ .ok (request.rolledBack failed released)) ∧
        newsOf EventKind.rolledBack.name (factsOf call h.facts) = [] := by
  have hmine {reply : Reply} (hf : ⟨call, .answered reply⟩ ∈ h.facts) :
      ⟨call, .answered reply⟩ ∈ factsOf call h.facts := mem_factsOf.2 ⟨hf, rfl⟩
  rcases life_of_seeks ha hseeks with ⟨-, e, hfacts⟩ |
    ⟨c₀, hb, rfl, rfl, ⟨spending, hgoal⟩, hway, ⟨c, hw⟩ | ⟨-, c, own, fs, hstory, hends, hfacts⟩⟩
  · -- the call was refused
    rw [hfacts] at hmine ⊢
    refine ⟨fun _ => rfl, fun reply hreply => .inr ⟨fun failed released heq => ?_, rfl⟩⟩
    have hrefused := List.mem_singleton.1 (hmine hreply)
    rw [heq] at hrefused
    cases hrefused
  · -- the call is still at work
    refine ⟨fun _ => hw.story.newsOf_rolledBack hb, fun reply hreply => ?_⟩
    exact absurd (hmine hreply) (hw.story.not_answered reply)
  · rw [hfacts] at hmine ⊢
    rw [newsOf_append, hstory.newsOf_rolledBack hb, List.nil_append]
    obtain ⟨htype, hparty, hcgoal, hcway⟩ := hstory.keeps
    have hanswer {reply : Reply} (hreply : ⟨call, .answered reply⟩ ∈ h.facts) :
        ⟨call, .answered reply⟩ ∈ fs :=
      (List.mem_append.1 (hmine hreply)).resolve_left (hstory.not_answered reply)
    rcases hends.newsOf_rolledBack with ⟨failed, stage, hmissed, hrolled, hnews⟩ | ⟨hquiet, hothers⟩
    · have hid : failed ∈ ids := by
        rw [← mem_distinct, ← hway, ← hcway, Caller.itinerary, Caller.here, stage]
        simp
      refine ⟨fun hnone => ?_, fun reply hreply => .inl
        ⟨failed, hid, c.taken.map Prod.fst, ?_, ?_, ?_⟩⟩
      · obtain ⟨reply, hreply⟩ := hends.exists_answered
        have hmem : ⟨call, .answered reply⟩ ∈ factsOf call h.facts := by
          rw [hfacts]
          exact List.mem_append_right _ hreply
        exact absurd (mem_factsOf.1 hmem).1 (hnone reply)
      · rw [hrolled reply (hanswer hreply), hcgoal, hgoal, Request.failure_aim hgroup]
      · rw [List.filterMap_append, hstory.missed_eq hb, hmissed, List.append_nil]
        simp only [Caller.missed, stage, Caller.keyOf, htype]
      · rw [hnews, Caller.eventOf, htype, hparty]
    · refine ⟨fun _ => newsOf_eq_nil hquiet, fun reply hreply => .inr ⟨?_, newsOf_eq_nil hquiet⟩⟩
      intro failed released heq
      rcases hothers reply (hanswer hreply) with hsuccess | hsingle | ⟨e, herror⟩
      · rw [hsuccess, hcgoal, hgoal] at heq
        exact Request.success_aim hgroup spending failed released (Except.ok.inj heq)
      · apply hsingle
        rw [hcgoal, hgoal]
        exact Request.allOrNone_aim hgroup spending
      · rw [herror] at heq
        cases heq

/-- A call for one resource that could not be had in time brings no news. -/
theorem quiet_of_tryLock {id : ResourceId} {timeout : Nat}
    (ha : h.actions = before ++ .submit call (.tryLock typeName id party timeout) :: after)
    (hanswered : ⟨call, .answered (.ok (.flag false))⟩ ∈ h.facts) {f : Fact} (hf : f ∈ h.facts)
    (hcall : f.call = call) : f.news? = none := by
  have hown : f ∈ factsOf call h.facts := mem_factsOf.2 ⟨hf, hcall⟩
  obtain ⟨c₀, c, own, id', ticket, budget, deadline, hb, hstory, -, htaken, hfacts⟩ :=
    ended_tryLock ha hanswered
  rw [hfacts] at hown
  rcases List.mem_append.1 hown with hmem | hmem
  · cases hnews : f.news? with
    | none => rfl
    | some n =>
      obtain ⟨-, -, hid, -⟩ := hstory.of_news hb hmem hnews
      rw [htaken] at hid
      exact absurd hid List.not_mem_nil
  · rcases List.mem_cons.1 hmem with rfl | hmem
    · rfl
    · rw [List.mem_singleton.1 hmem]
      rfl

/-- A call that is refused brings no news. -/
theorem quiet_of_refused {e : LockError} (ha : h.actions = before ++ .submit call request :: after)
    (hrequest : request.seeks? = some (typeName, ids, party) ∨
      request.returns? = some (typeName, ids, party))
    (hrefused : (h.start.run before).service.resolveFor typeName party = .error e) {f : Fact}
    (hf : f ∈ h.facts) (hcall : f.call = call) : f.news? = none := by
  have hown : f ∈ factsOf call h.facts := mem_factsOf.2 ⟨hf, hcall⟩
  have hfacts := Service.facts_of_refused hrequest call hrefused
  rw [factsOf_at_once ha (by rw [hfacts]; exact List.mem_cons_self), hfacts] at hown
  rw [List.mem_singleton.1 hown]
  rfl

/-- A call that could not give back its one permit brings no news. -/
theorem quiet_of_unlock {id : ResourceId} {e : LockError}
    (ha : h.actions = before ++ .submit call (.unlock typeName id party) :: after)
    (hanswered : ⟨call, .answered (.error e)⟩ ∈ h.facts) {f : Fact} (hf : f ∈ h.facts)
    (hcall : f.call = call) : f.news? = none := by
  have hown : f ∈ factsOf call h.facts := mem_factsOf.2 ⟨hf, hcall⟩
  have hmine : ⟨call, .answered (.error e)⟩ ∈ factsOf call h.facts := mem_factsOf.2 ⟨hanswered, rfl⟩
  have hseeks : (Request.unlock typeName id party).seeks? = none := rfl
  obtain ⟨reply, hreply⟩ := Service.exists_answer hseeks (h.start.run before).service call
  rw [factsOf_at_once ha hreply] at hown hmine
  exact Service.quiet_of_unlock hmine hown

/-- Over any stretch, as many permits more are out on a resource as were granted more than
returned. -/
theorem held_add_unlocked {mid : List Action} (ha : h.actions = before ++ mid ++ after)
    (key : Key) :
    (holdingsAt ((h.start.run before).service.run mid).service.slots key).length +
        countAbout key (newsOf EventKind.unlocked.name
          ((h.start.run before).service.run mid).facts) =
      (holdingsAt (h.start.run before).service.slots key).length +
        countAbout key
          (newsOf EventKind.locked.name ((h.start.run before).service.run mid).facts) := by
  have ha' : h.actions = before ++ (mid ++ after) := by rw [ha, List.append_assoc]
  have hfirst := (h.upTo ha').orderly.ledger.grants_eq_returns_add_held key
  have hlast := (h.upTo ha).orderly.ledger.grants_eq_returns_add_held key
  simp only [facts, service, upTo, Service.facts_run_append, Service.service_run_append,
    List.countP_append] at hfirst hlast
  rw [countAbout_newsOf (p := (·.returns key)) returns_iff,
    countAbout_newsOf (p := (·.grants key)) grants_iff]
  omega

end History

/-- A listener hears the news of its name from its registration until its removal, and nobody else
hears anything. News is what a call may tell, with its owners as listed: each permit granted, each
returned, and one rollback for each timed call for several resources that is answered so, with the
resource that the call gave up on, whichever form of answer it asked for. Calls that got nothing,
were refused or could not give back a permit bring none. So what is heard over any stretch tells how
many more permits are out on each resource. -/
theorem events_account_for_permits (h : History) :
    (∀ before l event after, h.actions = before ++ .submit l (.listen event) :: after →
      heard l h.facts = newsOf event
        ((h.start.run (before ++ [.submit l (.listen event)])).service.run
          (after.takeWhile fun a => !a.unlistens l)).facts) ∧
    (∀ l, (∀ event, .submit l (.listen event) ∉ h.actions) → heard l h.facts = []) ∧
    (∀ f ∈ h.facts, ∀ kind e, f.news? = some (kind, e) →
      ∃ request, .submit f.call request ∈ h.actions ∧ request.MayTell kind e) ∧
    (∀ before call request after, h.actions = before ++ .submit call request :: after →
      ∀ typeName ids party, request.seeks? = some (typeName, ids, party) →
        request.timedGroup = true →
      ((∀ reply, ⟨call, .answered reply⟩ ∉ h.facts) →
        newsOf EventKind.rolledBack.name (factsOf call h.facts) = []) ∧
      ∀ reply, ⟨call, .answered reply⟩ ∈ h.facts →
        (∃ failed ∈ ids, ∃ released, reply = .ok (request.rolledBack failed released) ∧
          (factsOf call h.facts).filterMap Fact.missed? = [(typeName, failed)] ∧
          newsOf EventKind.rolledBack.name (factsOf call h.facts) =
            [(call, .rolledBack, ⟨typeName, failed, party.listed⟩)]) ∨
        (∀ failed released, reply ≠ .ok (request.rolledBack failed released)) ∧
          newsOf EventKind.rolledBack.name (factsOf call h.facts) = []) ∧
    (∀ before call request after, h.actions = before ++ .submit call request :: after →
      (∃ typeName id party timeout, request = .tryLock typeName id party timeout ∧
        ⟨call, .answered (.ok (.flag false))⟩ ∈ h.facts) ∨
      (∃ typeName id party e, request = .unlock typeName id party ∧
        ⟨call, .answered (.error e)⟩ ∈ h.facts) ∨
      (∃ typeName ids party e, (request.seeks? = some (typeName, ids, party) ∨
          request.returns? = some (typeName, ids, party)) ∧
        (h.start.run before).service.resolveFor typeName party = .error e) →
      ∀ f ∈ h.facts, f.call = call → f.news? = none) ∧
    ∀ before mid after, h.actions = before ++ mid ++ after →
      let s := (h.start.run before).service
      ∀ l l' : CallId, ⟨l, EventKind.locked.name⟩ ∈ s.listeners →
        ⟨l', EventKind.unlocked.name⟩ ∈ s.listeners →
        (∀ a ∈ mid, a.unlistens l = false ∧ a.unlistens l' = false) →
        ∀ key, (holdingsAt (s.run mid).service.slots key).length +
            countAbout key (heard l' (s.run mid).facts) =
          (holdingsAt s.slots key).length + countAbout key (heard l (s.run mid).facts) := by
  refine ⟨fun before l event after ha => History.heard_of_listen ha, fun l hnever => ?_,
    fun f hf kind e news => History.mayTell_of_news hf news, ?_, ?_, ?_⟩
  · obtain ⟨registry, groupTimeout, -, hnew⟩ := h.isNew.eq_empty
    refine History.heard_of_unregistered h.start ?_ hnever
    rw [hnew]
    exact fun x hx => absurd hx List.not_mem_nil
  · intro before call request after ha typeName ids party hseeks hgroup
    exact History.newsOf_rolledBack ha hseeks hgroup
  · rintro before call request after ha (⟨typeName, id, party, timeout, rfl, hanswered⟩ |
      ⟨typeName, id, party, e, rfl, hanswered⟩ | ⟨typeName, ids, party, e, hrequest,
        hrefused⟩) f hf hcall
    · exact History.quiet_of_tryLock ha hanswered hf hcall
    · exact History.quiet_of_unlock ha hanswered hf hcall
    · exact History.quiet_of_refused ha hrequest hrefused hf hcall
  · intro before mid after ha s l l' hl hl' hstays key
    have hlocked := History.heard_of_registered ha hl fun a hmem => (hstays a hmem).1
    have hunlocked := History.heard_of_registered ha hl' fun a hmem => (hstays a hmem).2
    rw [hlocked, hunlocked]
    exact History.held_add_unlocked ha key

/-- With three listeners, a call for two resources is rolled back, and three more calls fail. -/
def overheard : History where
  start := .withType ⟨"doc", 1, .exclusivePerOwner⟩
  actions := [.submit 1 (.listen "ResourceLocked"), .submit 2 (.listen "ResourceUnlocked"),
    .submit 3 (.listen "GroupRolledBack"), .submit 4 (.lock "doc" 2 (.owner 9)), .move 4, .move 4,
    .submit 5 (.tryLockManyDetailed "doc" [1, 2] (.owner 7) 0), .move 5, .move 5, .move 5,
    .move 5, .move 5, .submit 6 (.tryLock "doc" 2 (.owner 8) 0), .move 6, .move 6,
    .submit 7 (.unlock "doc" 2 (.owner 8)),
    .submit 8 (.lockMany "doc" [3] (.group [8])), .submit 9 (.removeListener 1),
    .submit 10 (.lock "doc" 4 (.owner 8)), .move 10]
  isNew := Service.new_doc
  numbered := by decide

theorem events_account_for_permits_overheard :
    heard 1 overheard.facts = [(4, .locked, ⟨"doc", 2, [9]⟩), (5, .locked, ⟨"doc", 1, [7]⟩)] ∧
    heard 4 overheard.facts = [] ∧
    (∃ request, .submit 5 request ∈ overheard.actions ∧ request.MayTell .unlocked ⟨"doc", 1, [7]⟩) ∧
    (∃ failed ∈ [1, 2], (factsOf 5 overheard.facts).filterMap Fact.missed? = [("doc", failed)] ∧
      newsOf "GroupRolledBack" (factsOf 5 overheard.facts) =
        [(5, .rolledBack, ⟨"doc", failed, [7]⟩)]) ∧
    (∀ f ∈ overheard.facts, f.call ∈ [6, 7, 8] → f.news? = none) ∧
    let s := (overheard.start.run (overheard.actions.take 3)).service
    let t := s.run ((overheard.actions.drop 3).take 14)
    (holdingsAt t.service.slots ("doc", 2)).length + countAbout ("doc", 2) (heard 2 t.facts) =
      (holdingsAt s.slots ("doc", 2)).length + countAbout ("doc", 2) (heard 1 t.facts) := by
  obtain ⟨hheard, hnobody, hmay, hrolled, hquiet, hheld⟩ := events_account_for_permits overheard
  refine ⟨(hheard [] 1 "ResourceLocked" (overheard.actions.drop 1) rfl).trans rfl,
    hnobody 4 (by simp [overheard]), ?_, ?_, ?_, ?_⟩
  · exact hmay _ (List.mem_of_getElem? (i := 14) rfl) .unlocked _ rfl
  · obtain ⟨-, hanswered⟩ := hrolled (overheard.actions.take 6) 5 _
      (overheard.actions.drop 7) rfl "doc"
      [1, 2] (.owner 7) rfl rfl
    have hreply : ⟨5, .answered (.ok (.outcome (.rolledBack 2 [1])))⟩ ∈ overheard.facts :=
      List.mem_of_getElem? (i := 18) rfl
    rcases hanswered _ hreply with ⟨failed, hid, -, -, hmissed, hnews⟩ | ⟨hother, -⟩
    · exact ⟨failed, hid, hmissed, hnews⟩
    · exact absurd rfl (hother 2 [1])
  · intro f hf hcall
    simp only [List.mem_cons, List.not_mem_nil, or_false] at hcall
    rcases hcall with hcall | hcall | hcall
    · exact hquiet (overheard.actions.take 12) 6 _ (overheard.actions.drop 13) rfl
        (.inl ⟨_, _, _, _, rfl, List.mem_of_getElem? (i := 21) rfl⟩) f hf hcall
    · exact hquiet (overheard.actions.take 15) 7 _ (overheard.actions.drop 16) rfl
        (.inr (.inl ⟨_, _, _, _, rfl, List.mem_of_getElem? (i := 22) rfl⟩)) f hf hcall
    · exact hquiet (overheard.actions.take 16) 8 _ (overheard.actions.drop 17) rfl
        (.inr (.inr ⟨"doc", [3], .group [8], _, .inl rfl, rfl⟩)) f hf hcall
  · exact hheld (overheard.actions.take 3) ((overheard.actions.drop 3).take 14)
      (overheard.actions.drop 17)
      rfl 1 2 (List.mem_of_getElem? (i := 0) rfl) (List.mem_of_getElem? (i := 1) rfl)
        (by decide) ("doc", 2)

end FairLocks
