import FairLocks.Proofs.Registrations

/-!
# How calls fail

A request to lock or to unlock passes three checks before it touches anything. A call for permits
that has passed them fails only where it cannot give back what it took, so only a timed call for
several resources does. A request to unlock one resource fails where there is no slot, or nothing on
it that the named owners hold. None of these failures changes the service.
-/
namespace FairLocks

set_option autoImplicit false

/-- The call was answered by the error. -/
def History.Fails (h : History) (call : CallId) (e : LockError) : Prop :=
  ⟨call, .answered (.error e)⟩ ∈ h.facts

/-- The type and the party of a request to lock or to unlock. -/
def Request.subject? : Request → Option (String × Party)
  | unlock typeName _ party => some (typeName, party)
  | unlockMany typeName _ party => some (typeName, party)
  | request => request.seeks?.map fun asked => (asked.1, asked.2.2)

/-- The type and the party of a request to lock whose call keeps whatever it takes. -/
def Request.keeps? : Request → Option (String × Party)
  | lock typeName _ party => some (typeName, party)
  | lockMany typeName _ party => some (typeName, party)
  | tryLock typeName _ party _ => some (typeName, party)
  | _ => none

namespace LockError

/-- The error says that a request did not pass its checks. -/
def OfCheck : LockError → Prop
  | unknownType _ => True
  | modeMismatch _ _ _ => True
  | noOwners _ => True
  | _ => False

/-- The error says that something could not be given back. -/
def OfReturn : LockError → Prop
  | neverLocked _ => True
  | notOwner _ _ => True
  | _ => False

theorem OfCheck.not_ofReturn {e : LockError} (h : e.OfCheck) : ¬ e.OfReturn := by
  cases e <;> first | exact h.elim | exact id

end LockError

/-- The checks are passed: the type that is registered fits the party, and a group names an
owner. -/
def History.Admits (h : History) (typeName : String) (party : Party) : Prop :=
  ∃ t, h.registered? typeName = some t ∧ t.sharingMode = party.mode ∧ party ≠ .group []

/-- Every way in which the call of a request fails in the history, told from the history up to the
request. -/
structure Failures (h now : History) (call : CallId) (request : Request) : Prop where
  unknown : ∀ typeName party, request.subject? = some (typeName, party) →
    ∀ name, h.Fails call (.unknownType name) ↔
      name = typeName ∧ ∀ t ∈ now.registered, t.name ≠ typeName
  mismatch : ∀ typeName party, request.subject? = some (typeName, party) →
    ∀ name expected actual, h.Fails call (.modeMismatch name expected actual) ↔
      (∃ t, now.registered? typeName = some t ∧ t.sharingMode = actual) ∧
        actual ≠ expected ∧ expected = party.mode ∧ name = typeName
  noOwners : ∀ typeName party, request.subject? = some (typeName, party) →
    ∀ name, h.Fails call (.noOwners name) ↔
      (∃ t, now.registered? typeName = some t ∧ t.sharingMode = party.mode) ∧
        party = .group [] ∧ name = typeName
  keeps : ∀ typeName party, request.keeps? = some (typeName, party) → now.Admits typeName party →
    ∀ e, ¬ h.Fails call e
  unlock : ∀ typeName id party, request = .unlock typeName id party → now.Admits typeName party →
    ∀ e, h.Fails call e ↔
      (now.service.slots.get? (typeName, id) = none ∧ e = .neverLocked (typeName, id)) ∨
      ∃ slot, now.service.slots.get? (typeName, id) = some slot ∧
        (∀ g ∈ slot.holdings, ∀ o ∈ party.listed, o ∉ g.owners) ∧
        e = .notOwner (typeName, id) party.listed
  createType : ∀ t, request = .createType t →
    ∀ e, h.Fails call e ↔ t.capacity = 0 ∧ e = .invalidCapacity t.name t.capacity
  /-- Such a failure is all that the call does. -/
  untouched : ∀ e, h.Fails call e →
    e.OfCheck ∨ (∃ typeName id party, request = .unlock typeName id party) ∨
      (∃ t, request = .createType t) →
    now.service.act (.submit call request) = ⟨now.service, [⟨call, .answered (.error e)⟩]⟩ ∧
      factsOf call h.facts = [⟨call, .answered (.error e)⟩]

namespace Service

variable {s : Service} {call : CallId} {typeName : String} {party : Party} {e : LockError}

theorem resolveFor_unknown {name : String} :
    s.resolveFor typeName party = .error (.unknownType name) ↔
      name = typeName ∧ s.registry.types.get? typeName = none := by
  have hchecked := s.checked typeName party
  constructor
  · intro h
    rw [h] at hchecked
    cases hchecked with
    | unknown missing => exact ⟨rfl, missing⟩
  · rintro ⟨rfl, missing⟩
    generalize s.resolveFor name party = r at hchecked
    cases hchecked with
    | unknown => rfl
    | mismatch found | noOwners found | passed found => cases missing.symm.trans found

theorem resolveFor_mismatch (hr : s.registry.Sound) {name : String}
    {expected actual : SharingMode} :
    s.resolveFor typeName party = .error (.modeMismatch name expected actual) ↔
      (∃ t, s.registry.types.get? typeName = some t ∧ t.sharingMode = actual) ∧
        actual ≠ expected ∧ expected = party.mode ∧ name = typeName := by
  have hchecked := s.checked typeName party
  constructor
  · intro h
    rw [h] at hchecked
    cases hchecked with
    | mismatch found differs => exact ⟨⟨_, found, rfl⟩, differs, rfl, (hr _ _ found).1⟩
  · rintro ⟨⟨t, found, rfl⟩, differs, rfl, rfl⟩
    have hname := (hr _ _ found).1
    generalize s.resolveFor name party = r at hchecked
    cases hchecked with
    | unknown missing => cases missing.symm.trans found
    | mismatch found' =>
      cases found.symm.trans found'
      rw [hname]
    | noOwners found' fits | passed found' fits =>
      cases found.symm.trans found'
      exact absurd fits differs

theorem resolveFor_noOwners {name : String} :
    s.resolveFor typeName party = .error (.noOwners name) ↔
      (∃ t, s.registry.types.get? typeName = some t ∧ t.sharingMode = party.mode) ∧
        party = .group [] ∧ name = typeName := by
  have hchecked := s.checked typeName party
  constructor
  · intro h
    rw [h] at hchecked
    cases hchecked with
    | noOwners found fits nobody =>
      cases party with
      | owner o => cases nobody
      | group os =>
        cases nobody
        exact ⟨⟨_, found, fits⟩, rfl, rfl⟩
  · rintro ⟨⟨t, found, fits⟩, rfl, rfl⟩
    generalize s.resolveFor name (.group []) = r at hchecked
    cases hchecked with
    | unknown missing => cases missing.symm.trans found
    | mismatch found' differs =>
      cases found.symm.trans found'
      exact absurd fits differs
    | noOwners => rfl
    | passed _ _ named => exact absurd rfl named

/-- Giving back fails where there is no slot, or nothing on it that may be given back. -/
theorem giveBack_error_iff (hkeyed : Keyed s.slots) {key : Key} {p : Holding → Bool} :
    s.giveBack call key party p = .error e ↔
      (s.slots.get? key = none ∧ e = .neverLocked key) ∨
      ∃ slot, s.slots.get? key = some slot ∧ (∀ g ∈ slot.holdings, ¬ p g) ∧
        e = .notOwner key party.listed := by
  unfold giveBack
  cases hslot : s.slots.get? key with
  | none =>
    constructor
    · intro h
      cases h
      exact .inl ⟨rfl, rfl⟩
    · rintro (⟨-, rfl⟩ | ⟨slot, hslot, -⟩)
      · rfl
      · cases hslot
  | some slot =>
    cases hrelease : slot.release? p with
    | none =>
      simp only [hrelease, hkeyed key slot hslot]
      constructor
      · intro h
        cases h
        exact .inr ⟨slot, rfl, Slot.release_eq_none hrelease, rfl⟩
      · rintro (⟨hslot, -⟩ | ⟨_, -, -, rfl⟩)
        · cases hslot
        · rfl
    | some r =>
      simp only [hrelease]
      constructor
      · intro h
        cases h
      · rintro (⟨hslot, -⟩ | ⟨slot', hslot, hnone, -⟩)
        · cases hslot
        · cases hslot
          obtain ⟨l, r', hlr, -, hp, -⟩ := Slot.release_eq hrelease
          refine absurd hp (hnone _ ?_)
          rw [hlr]
          exact List.mem_append_right _ List.mem_cons_self

theorem giveBack_ofReturn {key : Key} {p : Holding → Bool}
    (h : s.giveBack call key party p = .error e) :
    e.OfReturn := by
  unfold giveBack at h
  split at h
  · cases h
    trivial
  · split at h
    · cases h
      trivial
    · cases h

theorem giveBackAll_ofReturn {ids : List ResourceId}
    (h : ⟨call, .answered (.error e)⟩ ∈ (s.giveBackAll call typeName party ids).facts) :
      e.OfReturn := by
  induction ids generalizing s with
  | nil => cases List.mem_singleton.1 h
  | cons id ids ih =>
    unfold giveBackAll at h
    split at h
    · rename_i e' he
      cases List.mem_singleton.1 h
      exact giveBack_ofReturn he
    · rename_i t ht
      obtain ⟨_, _, _, told, -, -, tells, rfl⟩ := giveBack_ok ht
      rcases List.mem_append.1 h with h | h
      · rcases List.mem_cons.1 h with h | h
        · cases h
        · obtain ⟨-, _, _, _, hdeed⟩ := tells _ h
          cases hdeed
      · exact ih h

/-- A request to unlock one resource gives back one permit there or does nothing. -/
theorem giveBackAll_singleton {id : ResourceId} :
    ⟨call, .answered (.error e)⟩ ∈ (s.giveBackAll call typeName party [id]).facts ↔
      s.giveBack call (typeName, id) party (fun g => party.Holds g) = .error e := by
  simp only [giveBackAll]
  cases hback : s.giveBack call (typeName, id) party fun g => party.Holds g with
  | error e' =>
    constructor
    · intro h
      cases List.mem_singleton.1 h
      rfl
    · intro h
      cases h
      exact List.mem_cons_self
  | ok t =>
    obtain ⟨_, _, _, told, -, -, tells, rfl⟩ := giveBack_ok hback
    refine ⟨fun h => ?_, fun h => by cases h⟩
    rcases List.mem_append.1 h with h | h
    · rcases List.mem_cons.1 h with h | h
      · cases h
      · obtain ⟨-, _, _, _, hdeed⟩ := tells _ h
        cases hdeed
    · cases List.mem_singleton.1 h

end Service

/-- What a caller that gives back has to report, if anything, is that it could not. -/
def Service.Blames (s : Service) : Prop :=
  ∀ call c failed left e, s.callers.get? call = some c → c.stage = .undoing failed left (some e) →
    e.OfReturn

namespace Service.Blames

variable {s : Service} {call : CallId} {c : Caller} {slots : Dict Key Slot}

theorem insert (hs : s.Blames)
    (hc : ∀ failed left e, c.stage = .undoing failed left (some e) → e.OfReturn) :
    { s with slots, callers := s.callers.insert call c }.Blames :=
  fun x c' failed left e hx stage =>
    Dict.forall_get?_insert (p := fun _ c => ∀ failed left e,
        c.stage = .undoing failed left (some e) → e.OfReturn)
      (fun x c' hx failed left e => hs x c' failed left e hx) hc x c' hx failed left e stage

theorem erase (hs : s.Blames) : { s with slots, callers := s.callers.erase call }.Blames := by
  intro x c' failed left e hx stage
  rw [Dict.get?_erase] at hx
  split at hx
  · cases hx
  · exact hs x c' failed left e hx stage

theorem moved {t : Turn} (hs : s.Blames) (h : Moved s call t) : t.service.Blames := by
  cases h with
  | succeeds => exact hs.erase
  | enters =>
    simp only [Service.enter]
    split
    · exact hs.insert fun _ _ _ stage => by cases stage
    · exact hs.insert fun _ _ _ stage => by cases stage
  | takes => exact hs.insert fun _ _ _ stage => by cases stage
  | dozes => exact hs
  | givesUp =>
    simp only [Service.giveUp]
    split
    · exact hs.insert fun _ _ _ stage => by cases stage
    · exact hs.erase
  | @undoes c failed member left error working stage =>
    simp only [Service.undo]
    split
    · rename_i t ht
      obtain ⟨_, _, _, _, -, -, -, rfl⟩ := Service.giveBack_ok ht
      refine hs.insert fun failed' left' e hstage => ?_
      cases hstage
      exact hs call c _ _ e working stage
    · rename_i e₁ he
      refine hs.insert fun failed' left' e hstage => ?_
      cases error with
      | none =>
        cases hstage
        exact Service.giveBack_ofReturn he
      | some e₀ =>
        cases hstage
        exact hs call c _ _ e working stage
  | undone =>
    unfold Service.undone
    split
    · exact hs.erase
    · exact hs.erase

theorem act (hs : s.Blames) (a : Action) : (s.act a).service.Blames := by
  cases a with
  | pass d => exact hs
  | submit call request =>
    intro x c failed left e hx stage
    rcases Service.callers_submit s call request with hsame | ⟨c₀, hnext, hcallers⟩
    · rw [Service.act, hsame] at hx
      exact hs x c failed left e hx stage
    · rw [Service.act, hcallers, Dict.get?_insert] at hx
      split at hx
      · cases hx
        cases hnext.symm.trans stage
      · exact hs x c failed left e hx stage
  | move call =>
    cases ht : s.move call with
    | none =>
      rw [Service.act, ht]
      exact hs
    | some t =>
      rw [Service.act_move ht]
      exact hs.moved (FairLocks.moved ht)

theorem run (hs : s.Blames) (as : List Action) : (s.run as).service.Blames := by
  induction as generalizing s with
  | nil => exact hs
  | cons a as ih => exact ih (hs.act a)

end Service.Blames

theorem Service.New.blames {s : Service} (h : s.New) : s.Blames := by
  obtain ⟨registry, groupTimeout, -, rfl⟩ := h.eq_empty
  exact fun x c failed left e hx => by cases hx

/-- A move answers by an error only where the caller has something to report. -/
theorem Moved.of_failed {s : Service} {call x : CallId} {t : Turn} {e : LockError}
    (h : Moved s call t) (hf : ⟨x, .answered (.error e)⟩ ∈ t.facts) :
    x = call ∧ ∃ c failed, s.callers.get? call = some c ∧
      c.stage = .undoing failed [] (some e) := by
  have hcall : x = call := (h.effect hf).call_eq
  refine ⟨hcall, ?_⟩
  have hsilent {kind : EventKind} {event : LockEvent} :
      (⟨x, .answered (.error e)⟩ : Fact) ∉ s.announce call kind event := by
    intro hmem
    obtain ⟨-, _, _, _, hdeed⟩ := Service.tells_announce s call kind event _ hmem
    cases hdeed
  cases h with
  | succeeds => cases List.mem_singleton.1 hf
  | @enters c id rest =>
    have hmade : (⟨x, .answered (.error e)⟩ : Fact) ∉ (s.slotFor call c.type id).2 := by
      unfold Service.slotFor
      split <;> simp
    simp only [Service.enter] at hf
    split at hf
    · exact absurd hf (by simp [Service.serve, hmade, hsilent])
    · exact absurd hf (by simp [hmade])
  | takes => exact absurd hf (by simp [Service.serve, hsilent])
  | dozes => exact absurd hf List.not_mem_nil
  | givesUp =>
    simp only [Service.giveUp] at hf
    split at hf <;> simp [Service.finish] at hf
  | undoes =>
    simp only [Service.undo] at hf
    split at hf
    · rename_i u hu
      obtain ⟨_, _, _, told, -, -, tells, rfl⟩ := Service.giveBack_ok hu
      rcases List.mem_cons.1 hf with hf | hf
      · cases hf
      · obtain ⟨-, _, _, _, hdeed⟩ := tells _ hf
        cases hdeed
    · cases List.mem_singleton.1 hf
  | @undone c failed error working stage =>
    unfold Service.undone at hf
    split at hf
    · cases List.mem_singleton.1 hf
      exact ⟨c, failed, working, stage⟩
    · exact absurd hf (by simp [Service.finish, hsilent])

namespace History

variable {h : History} {before after : List Action} {call : CallId} {request : Request}
  {typeName : String} {party : Party} {e : LockError}

/-- Of two places where a call makes its request there is only one. -/
theorem submit_unique {before' after' : List Action} {request' : Request}
    (ha : h.actions = before ++ .submit call request :: after)
    (ha' : h.actions = before' ++ .submit call request' :: after') :
    before' = before ∧ request' = request := by
  obtain ⟨hbefore, hafter⟩ := number_unique ha
  rw [ha] at ha'
  rcases List.append_eq_append_iff.1 ha' with ⟨m, hm, hrest⟩ | ⟨m, hm, hrest⟩
  · cases m with
    | nil =>
      cases hrest
      exact ⟨by rw [hm, List.append_nil], rfl⟩
    | cons a m =>
      refine absurd ?_ (hafter request')
      rw [(List.cons.inj hrest).2]
      exact List.mem_append_right _ List.mem_cons_self
  · cases m with
    | nil =>
      cases hrest
      exact ⟨by rw [hm, List.append_nil], rfl⟩
    | cons a m =>
      refine absurd ?_ (hbefore request')
      rw [hm, (List.cons.inj hrest).1]
      exact List.mem_append_right _ List.mem_cons_self

/-- Only a timed call for several resources ever gives back what it took. -/
theorem aim_of_undoing (ha : h.actions = before ++ .submit call request :: after) {c : Caller}
    {failed : ResourceId} {left : List (ResourceId × Nat)} {error : Option LockError}
    (working : h.service.callers.get? call = some c)
    (stage : c.stage = .undoing failed left error) :
    (∃ asked, request.seeks? = some asked) ∧ ∃ spending, (request.aim spending).AllOrNone := by
  cases hseeks : request.seeks? with
  | none =>
    obtain ⟨reply, hreply⟩ := Service.exists_answer hseeks (h.start.run before).service call
    cases working.symm.trans (gone_of_answered (mem_facts_of_act ha hreply)).idle
  | some asked =>
    refine ⟨⟨asked, rfl⟩, ?_⟩
    obtain ⟨typeName, ids, party⟩ := asked
    rcases life_of_seeks ha hseeks with ⟨hidle, -⟩ | ⟨c₀, hbegun, -, -, ⟨spending, hgoal⟩, -,
      ⟨c', hw⟩ | ⟨hgone, -⟩⟩
    · cases working.symm.trans hidle
    · cases working.symm.trans hw.working
      exact ⟨spending, hgoal ▸ hw.story.allOrNone_of_undoing hbegun stage⟩
    · cases working.symm.trans hgone.idle

/-- A call fails at once, or it is a timed call for several resources that could not give one
back. -/
theorem Fails.at_once_or_undoing (hfails : h.Fails call e)
    (ha : h.actions = before ++ .submit call request :: after) :
    ⟨call, .answered (.error e)⟩ ∈ ((h.start.run before).service.submit call request).facts ∨
      e.OfReturn ∧ (∃ asked, request.seeks? = some asked) ∧ ∃ spending,
        (request.aim spending).AllOrNone := by
  obtain ⟨before', a, after', ha', hf⟩ := Service.exists_act_of_mem_run hfails
  cases a with
  | pass d => exact absurd hf List.not_mem_nil
  | submit x request' =>
    cases (Service.effect_submit hf).call_eq
    obtain ⟨rfl, rfl⟩ := submit_unique ha ha'
    exact .inl hf
  | move x =>
    cases ht : (h.start.run before').service.move x with
    | none =>
      rw [Service.act, ht] at hf
      exact absurd hf List.not_mem_nil
    | some t =>
      rw [Service.act_move ht] at hf
      obtain ⟨rfl, c, failed, working, stage⟩ := (moved ht).of_failed hf
      refine .inr ⟨h.isNew.blames.run before' call c failed [] e working stage, ?_⟩
      -- the request stands before the move
      have hused : ¬ Unused (h.upTo ha').facts (h.upTo ha').service call :=
        fun hu => by cases hu.idle.symm.trans working
      obtain ⟨b, request', b', hb⟩ := exists_submit hused
      have hwhole : h.actions = b ++ .submit call request' :: (b' ++ .move call :: after') := by
        rw [ha', show before' = b ++ .submit call request' :: b' from hb, List.append_assoc,
          List.cons_append]
      obtain ⟨-, rfl⟩ := submit_unique ha hwhole
      exact aim_of_undoing hb working stage

theorem fails_of_submit (ha : h.actions = before ++ .submit call request :: after)
    (hf : ⟨call, .answered (.error e)⟩ ∈ ((h.start.run before).service.submit call request).facts) :
    h.Fails call e := mem_facts_of_act ha hf

/-- A call does not pass its checks exactly where they end in an error. -/
theorem fails_iff_of_ofCheck (ha : h.actions = before ++ .submit call request :: after)
    (hsubject : request.subject? = some (typeName, party)) (he : e.OfCheck) :
    h.Fails call e ↔ (h.start.run before).service.resolveFor typeName party = .error e := by
  have hengage {ids : List ResourceId} {goal : Goal} :
      ⟨call, .answered (.error e)⟩ ∈
        ((h.start.run before).service.engage call typeName ids party goal).facts ↔
          (h.start.run before).service.resolveFor typeName party = .error e := by
    unfold Service.engage
    cases (h.start.run before).service.resolveFor typeName party <;> simp [Service.answer, eq_comm]
  have hunlock {ids : List ResourceId} :
      ⟨call, .answered (.error e)⟩ ∈
        ((h.start.run before).service.unlockAll call typeName ids party).facts ↔
          (h.start.run before).service.resolveFor typeName party = .error e := by
    unfold Service.unlockAll
    cases (h.start.run before).service.resolveFor typeName party with
    | error e' => simp [Service.answer, eq_comm]
    | ok t => exact ⟨fun hf => absurd (Service.giveBackAll_ofReturn hf) he.not_ofReturn,
        fun h => by cases h⟩
  have hsubmit :
    ⟨call, .answered (.error e)⟩ ∈ ((h.start.run before).service.submit call request).facts ↔
      (h.start.run before).service.resolveFor typeName party = .error e := by
    cases request with
    | lock | lockMany | tryLock | tryLockMany | tryLockManyDetailed =>
      cases hsubject
      exact hengage
    | unlock | unlockMany =>
      cases hsubject
      exact hunlock
    | createType | findType | typeNames | groupTimeout | slotState | isLocked | slotCount
    | evictIdle | listen | removeListener => cases hsubject
  constructor
  · intro hfails
    rcases hfails.at_once_or_undoing ha with hf | ⟨hreturn, -⟩
    · exact hsubmit.1 hf
    · exact absurd hreturn he.not_ofReturn
  · exact fun hresolve => fails_of_submit ha (hsubmit.2 hresolve)

end History

theorem Service.resolveFor_ok_iff {s : Service} {typeName : String} {party : Party}
    {t : ResourceType} :
    s.resolveFor typeName party = .ok t ↔
      s.registry.types.get? typeName = some t ∧ t.sharingMode = party.mode ∧ party ≠ .group [] := by
  have hchecked := s.checked typeName party
  constructor
  · intro h
    rw [h] at hchecked
    cases hchecked with
    | passed found fits named =>
      refine ⟨found, fits, ?_⟩
      rintro rfl
      exact named rfl
  · rintro ⟨found, fits, named⟩
    generalize s.resolveFor typeName party = r at hchecked
    cases hchecked with
    | unknown missing => cases missing.symm.trans found
    | mismatch found' differs =>
      cases found.symm.trans found'
      exact absurd fits differs
    | noOwners _ _ nobody =>
      cases party with
      | owner o => cases nobody
      | group os =>
        cases nobody
        exact absurd rfl named
    | passed found' =>
      cases found.symm.trans found'
      rfl

/-- A failure that a call has at once, of a kind that leaves the service alone, is all its turn. -/
theorem Service.submit_of_failed {s : Service} {call : CallId} {request : Request} {e : LockError}
    (hf : ⟨call, .answered (.error e)⟩ ∈ (s.submit call request).facts)
    (hkind : e.OfCheck ∨ (∃ typeName id party, request = .unlock typeName id party) ∨
      ∃ t, request = .createType t) :
    s.submit call request = s.answer call (.error e) := by
  have hengage {typeName : String} {ids : List ResourceId} {party : Party} {goal : Goal}
      (hf : ⟨call, .answered (.error e)⟩ ∈ (s.engage call typeName ids party goal).facts) :
      s.engage call typeName ids party goal = s.answer call (.error e) := by
    unfold engage at hf ⊢
    split
    · rename_i e' he
      rw [he] at hf
      cases List.mem_singleton.1 hf
      rfl
    · rename_i t ht
      rw [ht] at hf
      exact absurd hf List.not_mem_nil
  have hanswer {reply : Reply} (hf : ⟨call, .answered (.error e)⟩ ∈ (s.answer call reply).facts) :
      s.answer call reply = s.answer call (.error e) := by
    cases List.mem_singleton.1 hf
    rfl
  cases request with
  | lock | lockMany | tryLock | tryLockMany | tryLockManyDetailed => exact hengage hf
  | findType | typeNames | groupTimeout | slotState | isLocked | slotCount => exact hanswer hf
  | evictIdle => exact absurd hf (by simp [submit, Service.evictIdle])
  | listen | removeListener => cases List.mem_singleton.1 hf
  | createType t =>
    simp only [submit, createType] at hf ⊢
    split at hf
    · exact hanswer hf
    · exact absurd hf (by simp)
  | unlock typeName id party =>
    simp only [submit, unlockAll] at hf ⊢
    split at hf
    · exact hanswer hf
    · have hback := giveBackAll_singleton.1 hf
      rw [show distinct [id] = [id] from rfl, giveBackAll, hback]
  | unlockMany typeName ids party =>
    simp only [submit, unlockAll] at hf ⊢
    split at hf
    · exact hanswer hf
    · rcases hkind with hcheck | ⟨_, _, _, heq⟩ | ⟨_, heq⟩
      · exact absurd (giveBackAll_ofReturn hf) hcheck.not_ofReturn
      · cases heq
      · cases heq

theorem History.Admits.resolveFor {h : History} {typeName : String} {party : Party}
    (ha : h.Admits typeName party) : ∃ t, h.service.resolveFor typeName party = .ok t := by
  obtain ⟨t, found, fits, named⟩ := ha
  rw [History.registered?_eq] at found
  exact ⟨t, Service.resolveFor_ok_iff.2 ⟨found, fits, named⟩⟩

namespace History

variable {h : History} {before after : List Action} {call : CallId} {request : Request}
  {typeName : String} {party : Party} {e : LockError}

/-- A request that does not ask for permits fails at once or not at all. -/
theorem fails_iff_of_visit (ha : h.actions = before ++ .submit call request :: after)
    (hseeks : request.seeks? = none) :
    h.Fails call e ↔
      ⟨call, .answered (.error e)⟩ ∈ ((h.start.run before).service.submit call request).facts := by
  refine ⟨fun hfails => ?_, fails_of_submit ha⟩
  rcases hfails.at_once_or_undoing ha with hf | ⟨-, ⟨asked, hasked⟩, -⟩
  · exact hf
  · cases hseeks.symm.trans hasked

theorem not_fails_of_keeps (ha : h.actions = before ++ .submit call request :: after)
    (hkeeps : request.keeps? = some (typeName, party))
    (hadmits : (h.upTo ha).Admits typeName party) :
    ¬ h.Fails call e := by
  intro hfails
  obtain ⟨t, hresolve⟩ := hadmits.resolveFor
  rcases hfails.at_once_or_undoing ha with hf | ⟨-, -, spending, timeout, spending', detailed, haim⟩
  · have hengage : ∃ ids goal, (h.start.run before).service.submit call request =
        (h.start.run before).service.engage call typeName ids party goal := by
      cases request with
      | lock | lockMany | tryLock =>
        cases hkeeps
        exact ⟨_, _, rfl⟩
      | unlock | unlockMany | tryLockMany | tryLockManyDetailed | createType | findType | typeNames
      | groupTimeout | slotState | isLocked | slotCount | evictIdle | listen | removeListener =>
          cases hkeeps
    obtain ⟨ids, goal, hengage⟩ := hengage
    rw [hengage, Service.engage, show (h.start.run before).service.resolveFor typeName party =
      .ok t from hresolve] at hf
    exact absurd hf List.not_mem_nil
  · cases request with
    | tryLockMany | tryLockManyDetailed => cases hkeeps
    | lock | lockMany | tryLock | unlock | unlockMany | createType | findType | typeNames
    | groupTimeout | slotState | isLocked | slotCount | evictIdle | listen
    | removeListener => cases haim

theorem fails_unlock_iff {id : ResourceId}
    (ha : h.actions = before ++ .submit call (.unlock typeName id party) :: after)
    (hadmits : (h.upTo ha).Admits typeName party) :
    h.Fails call e ↔
      ((h.upTo ha).service.slots.get? (typeName, id) = none ∧ e = .neverLocked (typeName, id)) ∨
      ∃ slot, (h.upTo ha).service.slots.get? (typeName, id) = some slot ∧
        (∀ g ∈ slot.holdings, ∀ o ∈ party.listed, o ∉ g.owners) ∧
        e = .notOwner (typeName, id) party.listed := by
  obtain ⟨t, hresolve⟩ := hadmits.resolveFor
  have hsubmit : (h.start.run before).service.submit call (.unlock typeName id party) =
      (h.start.run before).service.giveBackAll call typeName party [id] := by
    simp only [Service.submit, Service.unlockAll]
    rw [show (h.start.run before).service.resolveFor typeName party = .ok t from hresolve]
    rfl
  have hholds (g : Holding) : ¬ decide (party.Holds g) = true ↔ ∀ o ∈ party.listed,
      o ∉ g.owners := by
    rw [decide_eq_true_eq, Party.Holds]
    simp only [not_exists, not_and]
  have hkeyed : Keyed (h.start.run before).service.slots := (h.upTo ha).orderly.ledger.keyed
  rw [fails_iff_of_visit ha rfl, hsubmit, Service.giveBackAll_singleton,
    Service.giveBack_error_iff hkeyed]
  simp only [hholds]
  rfl

theorem fails_createType_iff {t : ResourceType}
    (ha : h.actions = before ++ .submit call (.createType t) :: after) :
    h.Fails call e ↔ t.capacity = 0 ∧ e = .invalidCapacity t.name t.capacity := by
  rw [fails_iff_of_visit ha rfl]
  simp only [Service.submit, Service.createType, Registry.register]
  by_cases hcapacity : t.capacity = 0
  · simp [hcapacity, Service.answer]
  · simp [hcapacity]

theorem untouched_of_fails (ha : h.actions = before ++ .submit call request :: after)
    (hfails : h.Fails call e)
    (hkind : e.OfCheck ∨ (∃ typeName id party, request = .unlock typeName id party) ∨
      ∃ t, request = .createType t) :
    (h.upTo ha).service.act (.submit call request) =
        ⟨(h.upTo ha).service, [⟨call, .answered (.error e)⟩]⟩ ∧
      factsOf call h.facts = [⟨call, .answered (.error e)⟩] := by
  have hf :
      ⟨call, .answered (.error e)⟩ ∈ ((h.start.run before).service.submit call request).facts := by
    rcases hfails.at_once_or_undoing ha with hf | ⟨hreturn, ⟨asked, hseeks⟩, -⟩
    · exact hf
    · rcases hkind with hcheck | ⟨_, _, _, rfl⟩ | ⟨_, rfl⟩
      · exact absurd hreturn hcheck.not_ofReturn
      · cases hseeks
      · cases hseeks
  have hturn := Service.submit_of_failed hf hkind
  refine ⟨hturn, ?_⟩
  rw [factsOf_at_once ha hf, hturn]
  rfl

end History

/-- Errors are those of the checks in their order, those of a resource that cannot be given back,
and that of a type without permits. A failed check, a failed return of one resource and a refused
type leave the service as it was. -/
theorem failures_exact (h : History) {before after : List Action} {call : CallId}
    {request : Request} (ha : h.actions = before ++ .submit call request :: after) :
    Failures h (h.upTo ha) call request := by
  have hregistered (name : String) : (h.upTo ha).registered? name =
      (h.start.run before).service.registry.types.get? name :=
        History.registered?_eq (h.upTo ha) name
  refine ⟨?unknown, ?mismatch, ?noOwners, ?keeps, ?unlock, ?createType, ?untouched⟩
  case unknown =>
    intro typeName party hsubject name
    have hcheck : (LockError.unknownType name).OfCheck := trivial
    rw [History.fails_iff_of_ofCheck ha hsubject hcheck, Service.resolveFor_unknown, ← hregistered,
      History.registered?_eq_none_iff]
  case mismatch =>
    intro typeName party hsubject name expected actual
    have hcheck : (LockError.modeMismatch name expected actual).OfCheck := trivial
    have hsound : (h.start.run before).service.registry.Sound := (h.upTo ha).orderly.registry
    rw [History.fails_iff_of_ofCheck ha hsubject hcheck, Service.resolveFor_mismatch hsound,
      hregistered]
  case noOwners =>
    intro typeName party hsubject name
    have hcheck : (LockError.noOwners name).OfCheck := trivial
    rw [History.fails_iff_of_ofCheck ha hsubject hcheck, Service.resolveFor_noOwners, hregistered]
  case keeps => exact fun typeName party hkeeps hadmits e =>
    History.not_fails_of_keeps ha hkeeps hadmits
  case unlock =>
    rintro typeName id party rfl hadmits e
    exact History.fails_unlock_iff ha hadmits
  case createType =>
    rintro t rfl e
    exact History.fails_createType_iff ha
  case untouched => exact fun e hfails hkind => History.untouched_of_fails ha hfails hkind

/-- The owner of a document gives it back twice, before and after the slot is dropped; the type is
made one for groups in between. -/
def givenBackTwice : History where
  start := .withType ⟨"doc", 1, .exclusivePerOwner⟩
  actions := [.submit 1 (.lock "doc" 1 (.owner 7)), .move 1, .move 1,
    .submit 2 (.unlock "doc" 1 (.owner 9)), .submit 3 (.unlock "doc" 1 (.owner 7)),
    .submit 4 .evictIdle,
    .submit 5 (.unlock "doc" 1 (.owner 7)), .submit 6 (.createType ⟨"doc", 2, .sharedGroup⟩),
    .submit 7 (.tryLock "doc" 1 (.owner 7) 5)]
  isNew := Service.new_doc
  numbered := by decide

/-- Nobody but the owner can give it back, and without a slot there is nothing to give back. -/
theorem failures_exact_givenBackTwice :
    (givenBackTwice.Fails 2 (.notOwner ("doc", 1) [9]) ∧
      givenBackTwice.Fails 5 (.neverLocked ("doc", 1))) ∧
    givenBackTwice.Fails 7 (.modeMismatch "doc" .exclusivePerOwner .sharedGroup) ∧
    factsOf 2 givenBackTwice.facts = [⟨2, .answered (.error (.notOwner ("doc", 1) [9]))⟩] := by
  have h2 := failures_exact givenBackTwice (show givenBackTwice.actions =
    givenBackTwice.actions.take 3 ++ .submit 2 (.unlock "doc" 1 (.owner 9)) ::
    givenBackTwice.actions.drop 4 from rfl)
  have h5 := failures_exact givenBackTwice (show givenBackTwice.actions =
    givenBackTwice.actions.take 6 ++ .submit 5 (.unlock "doc" 1 (.owner 7)) ::
    givenBackTwice.actions.drop 7 from rfl)
  have h7 := failures_exact givenBackTwice (show givenBackTwice.actions =
    givenBackTwice.actions.take 8 ++ .submit 7 (.tryLock "doc" 1 (.owner 7) 5) ::
    givenBackTwice.actions.drop 9 from rfl)
  have hnotOwner := (h2.unlock "doc" 1 (.owner 9) rfl ⟨_, rfl, rfl, fun h => by cases h⟩
    (.notOwner ("doc", 1) [9])).2 (.inr ⟨_, rfl, by decide, rfl⟩)
  have hneverLocked := (h5.unlock "doc" 1 (.owner 7) rfl ⟨_, rfl, rfl, fun h => by cases h⟩
    (.neverLocked ("doc", 1))).2 (.inl ⟨rfl, rfl⟩)
  have hmismatch := (h7.mismatch "doc" (.owner 7) rfl "doc" .exclusivePerOwner .sharedGroup).2
    ⟨⟨_, rfl, rfl⟩, by decide, rfl, rfl⟩
  exact ⟨⟨hnotOwner, hneverLocked⟩, hmismatch,
    (h2.untouched _ hnotOwner (.inr (.inl ⟨_, _, _, rfl⟩))).2⟩

end FairLocks
