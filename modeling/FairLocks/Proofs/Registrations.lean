import FairLocks.Proofs.Group
import FairLocks.Proofs.Undrawn

/-!
# Registrations

The registry has under each name the type that was registered last, and nothing but a registration
changes it. A request to lock or to unlock is checked against what is registered when it is made.
Whatever a call for permits does later, it does for the type and the party with which it passed the
checks.
-/
namespace FairLocks

set_option autoImplicit false

/-- The type that the fact tells was registered. -/
def Fact.registration? (f : Fact) : Option ResourceType :=
  match f.deed with
  | .registered t _ => some t
  | _ => none

theorem Fact.Tells.registration?_eq {f : Fact} {call : CallId} (h : f.Tells call) :
    f.registration? = none := by
  obtain ⟨-, listener, kind, event, hf⟩ := h
  simp [registration?, hf]

/-- What the checks of a request to lock or to unlock come to. -/
inductive Service.Checked (s : Service) (typeName : String) (party : Party) :
    Except LockError ResourceType → Prop
  | unknown (missing : s.registry.types.get? typeName = none) :
      Checked s typeName party (.error (.unknownType typeName))
  | mismatch {t : ResourceType} (found : s.registry.types.get? typeName = some t)
      (differs : t.sharingMode ≠ party.mode) :
      Checked s typeName party (.error (.modeMismatch t.name party.mode t.sharingMode))
  | noOwners {t : ResourceType} (found : s.registry.types.get? typeName = some t)
      (fits : t.sharingMode = party.mode) (nobody : party.listed = []) :
      Checked s typeName party (.error (.noOwners typeName))
  | passed {t : ResourceType} (found : s.registry.types.get? typeName = some t)
      (fits : t.sharingMode = party.mode) (named : party.listed ≠ []) :
      Checked s typeName party (.ok t)

theorem Service.checked (s : Service) (typeName : String) (party : Party) :
    s.Checked typeName party (s.resolveFor typeName party) := by
  unfold resolveFor Registry.resolve
  cases found : s.registry.types.get? typeName with
  | none => exact .unknown found
  | some t =>
    simp only [ResourceType.requireMode]
    by_cases fits : t.sharingMode = party.mode
    · rw [if_pos fits]
      by_cases nobody : party.listed = []
      · simp only [if_pos nobody]
        exact .noOwners found fits nobody
      · simp only [if_neg nobody]
        exact .passed found fits nobody
    · rw [if_neg fits]
      exact .mismatch found fits

section

variable {s : Service} {call : CallId} {t : Turn}

/-- A move registers nothing. -/
theorem Moved.registers_nothing (h : Moved s call t) : ∀ f ∈ t.facts, f.registration? = none := by
  have htold {kind : EventKind} {event : LockEvent} :
      ∀ f ∈ s.announce call kind event, f.registration? = none :=
    fun f hf => (Service.tells_announce s call kind event f hf).registration?_eq
  cases h with
  | succeeds => simp [Service.finish, Fact.registration?]
  | @enters c id rest =>
    have hmade : ∀ f ∈ (s.slotFor call c.type id).2, f.registration? = none := by
      unfold Service.slotFor
      split <;> simp [Fact.registration?]
    intro f hf
    simp only [Service.enter] at hf
    split at hf
    · rcases List.mem_append.1 hf with hf | hf
      · exact hmade f hf
      · rcases List.mem_cons.1 hf with rfl | hf
        · rfl
        · rcases List.mem_cons.1 hf with rfl | hf
          · rfl
          · exact htold f hf
    · rcases List.mem_append.1 hf with hf | hf
      · exact hmade f hf
      · rw [List.mem_singleton.1 hf]
        rfl
  | takes => exact List.forall_mem_cons.2 ⟨rfl, htold⟩
  | dozes => exact fun f hf => absurd hf List.not_mem_nil
  | givesUp =>
    simp only [Service.giveUp]
    split <;> simp [Service.finish, Fact.registration?]
  | undoes =>
    simp only [Service.undo]
    split
    · rename_i u hu
      obtain ⟨_, _, _, told, -, -, tells, rfl⟩ := Service.giveBack_ok hu
      exact List.forall_mem_cons.2 ⟨rfl, fun f hf => (tells f hf).registration?_eq⟩
    · simp [Fact.registration?]
  | undone =>
    unfold Service.undone
    split
    · simp [Service.finish, Fact.registration?]
    · refine List.forall_mem_cons.2 ⟨rfl, fun f hf => ?_⟩
      rcases List.mem_append.1 hf with hf | hf
      · exact htold f hf
      · rw [List.mem_singleton.1 hf]
        rfl

namespace Service

/-- A request registers nothing unless it asks for just that. -/
theorem submit_registers_nothing {request : Request} (h : ∀ type, request ≠ .createType type) :
    ∀ f ∈ (s.submit call request).facts, f.registration? = none := by
  have hengage (typeName : String) (ids : List ResourceId) (party : Party) (goal : Goal) :
      ∀ f ∈ (s.engage call typeName ids party goal).facts, f.registration? = none := by
    unfold engage
    split <;> simp [answer, Fact.registration?]
  have hunlock (typeName : String) (ids : List ResourceId) (party : Party) :
      ∀ f ∈ (s.unlockAll call typeName ids party).facts, f.registration? = none := by
    unfold unlockAll
    split
    · simp [answer, Fact.registration?]
    · intro f hf
      rcases mem_giveBackAll (nodup_distinct ids) hf with
        ⟨_, -, _, _, _, _, -, -, -, rfl⟩ | htold | ⟨_, rfl, -⟩
      · rfl
      · exact htold.registration?_eq
      · rfl
  cases request with
  | createType type => exact absurd rfl (h type)
  | lock | lockMany | tryLock | tryLockMany | tryLockManyDetailed => exact hengage _ _ _ _
  | unlock | unlockMany => exact hunlock _ _ _
  | evictIdle => simp [submit, evictIdle, Fact.registration?]
  | listen | removeListener => simp [submit, listen, removeListener, answer, Fact.registration?]
  | findType | typeNames | groupTimeout | slotState | isLocked | slotCount =>
    simp [submit, answer, Fact.registration?]

/-- A registration puts the type in the place of the one that it tells of; nothing else touches the
registry. -/
theorem registry_act (s : Service) (a : Action) :
    ((s.act a).service.registry = s.registry ∧ ∀ f ∈ (s.act a).facts, f.registration? = none) ∨
    ∃ call type, a = .submit call (.createType type) ∧ 0 < type.capacity ∧
      s.act a = ⟨{ s with registry := ⟨s.registry.types.insert type.name type⟩ },
        [⟨call, .registered type (s.registry.types.get? type.name)⟩,
          ⟨call, .answered (.ok .done)⟩]⟩ := by
  cases a with
  | pass d => exact .inl ⟨rfl, fun f hf => absurd hf List.not_mem_nil⟩
  | move call =>
    cases ht : s.move call with
    | none =>
      rw [act, ht]
      exact .inl ⟨rfl, fun f hf => absurd hf List.not_mem_nil⟩
    | some t =>
      rw [act_move ht]
      obtain ⟨slots, callers, hframe⟩ := (moved ht).frame
      exact .inl ⟨by rw [hframe], (moved ht).registers_nothing⟩
  | submit call request =>
    by_cases hcreate : ∃ type, request = .createType type
    · obtain ⟨type, rfl⟩ := hcreate
      simp only [act, submit, createType, Registry.register]
      by_cases hcapacity : type.capacity = 0
      · simp only [if_pos hcapacity]
        exact .inl ⟨rfl, by simp [answer, Fact.registration?]⟩
      · simp only [if_neg hcapacity]
        exact .inr ⟨call, type, rfl, Nat.pos_of_ne_zero hcapacity, rfl⟩
    · refine .inl ⟨?_, submit_registers_nothing fun type heq => hcreate ⟨type, heq⟩⟩
      rcases frame_submit s call request with ⟨_, _, hs⟩ | ⟨type, _, heq, -⟩ |
        ⟨_, -, hs⟩ | ⟨_, -, hs⟩
      · rw [act, hs]
      · exact absurd ⟨type, heq⟩ hcreate
      · rw [act, hs]
      · rw [act, hs]

end Service

end

namespace History

/-- The types that were registered, in order: first those that the configuration left. -/
def registered (h : History) : List ResourceType :=
  h.start.registry.types.entries.map Prod.snd ++ h.facts.filterMap Fact.registration?

/-- The type that was registered last under the name. -/
def registered? (h : History) (name : String) : Option ResourceType :=
  (h.registered.filter fun t => t.name = name).getLast?

theorem registered?_eq_none_iff {h : History} {name : String} :
    h.registered? name = none ↔ ∀ t ∈ h.registered, t.name ≠ name := by
  simp [registered?]

end History

/-- The last of the types of a name is the one that the registry has under it. -/
theorem Registry.Sound.getLast?_entries {r : Registry} (hr : r.Sound) (name : String) :
    ((r.types.entries.map Prod.snd).filter fun t => t.name = name).getLast? =
      r.types.get? name := by
  have hnames : ∀ e ∈ r.types.entries, e.2.name = e.1 :=
    fun e he => (hr _ _ (Dict.get?_of_mem he)).1
  have hlist (l : List (String × ResourceType)) (hn : (l.map Prod.fst).Nodup)
      (hl : ∀ e ∈ l, e.2.name = e.1) :
      ((l.map Prod.snd).filter fun t => t.name = name).getLast? = Dict.lookup name l := by
    induction l with
    | nil => rfl
    | cons e l ih =>
      obtain ⟨he, hn⟩ := List.nodup_cons.1 hn
      have hrest := ih hn fun e' he' => hl e' (List.mem_cons_of_mem _ he')
      have hname := hl e List.mem_cons_self
      by_cases hk : e.1 = name
      · have hnone : Dict.lookup name l = none := (Dict.lookup_eq_none_iff _ _).2 (hk ▸ he)
        rw [hnone, List.getLast?_eq_none_iff] at hrest
        simp [Dict.lookup, hk, hname.trans hk, hrest]
      · have hne : ¬ e.2.name = name := fun heq => hk (hname.symm.trans heq)
        simp [Dict.lookup, hk, hne, hrest]
  exact hlist _ r.types.nodup hnames

namespace History

variable {h : History} {before after : List Action} {call : CallId} {request : Request}
  {typeName : String} {ids : List ResourceId} {party : Party}

/-- The registry has under each name what was registered last. -/
theorem registered?_eq (h : History) (name : String) :
    h.registered? name = h.service.registry.types.get? name := by
  have hrun (as : List Action) :
      ((h.start.registry.types.entries.map Prod.snd ++
          (h.start.run as).facts.filterMap Fact.registration?).filter fun t =>
            t.name = name).getLast? =
        (h.start.run as).service.registry.types.get? name := by
    induction as using List.reverseRecOn with
    | nil => simpa using h.isNew.orderly.1.registry.getLast?_entries name
    | append_singleton as a ih =>
      rw [Service.facts_run_snoc, Service.service_run_snoc, List.filterMap_append,
        ← List.append_assoc, List.filter_append]
      rcases Service.registry_act (h.start.run as).service a with ⟨hsame, hnone⟩ |
        ⟨x, type, -, -, hact⟩
      · rw [hsame, List.filterMap_eq_nil_iff.2 hnone, List.filter_nil, List.append_nil, ih]
      · rw [hact]
        change (_ ++ List.filter _ [type]).getLast? =
          ((h.start.run as).service.registry.types.insert type.name type).get? name
        rw [Dict.get?_insert]
        by_cases hname : type.name = name
        · simp [hname]
        · have hnone : [type].filter (fun t => t.name = name) = [] := by simp [hname]
          rw [if_neg hname, hnone, List.append_nil, ih]
  exact hrun h.actions

/-- The call asked for permits of this type of resources for the party, when `t` was registered
under the name. -/
def Began (h : History) (call : CallId) (typeName : String) (party : Party)
    (t : ResourceType) : Prop :=
  ∃ before request ids after, ∃ ha : h.actions = before ++ .submit call request :: after,
    request.seeks? = some (typeName, ids, party) ∧ (h.upTo ha).registered? typeName = some t

end History

/-- What a deed says that a call for permits does later, of the type and the party it began with. -/
def Deed.Suits (t : ResourceType) (party : Party) : Deed → Prop
  | opened key slot => key.1 = t.name ∧ slot = Slot.fresh t key.2
  | granted key _ _ p _ => key.1 = t.name ∧ p = party
  | _ => True

/-- Slots are made, and permits granted, for the type and the party that the call began with. -/
theorem Story.suits {call : CallId} {c₀ c : Caller} {own : List Fact} (h : Story call c₀ own c) :
    ∀ f ∈ own, f.deed.Suits c₀.type c₀.party := by
  induction h with
  | begun => exact fun f hf => absurd hf List.not_mem_nil
  | @advance own fs c c' d before step ih =>
    obtain ⟨htype, hparty, -, -⟩ := before.keeps
    obtain ⟨f₀, told, rfl, tells⟩ := step.exists_head
    intro f hf
    rcases List.mem_append.1 hf with hf | hf
    · exact ih f hf
    · rcases List.mem_cons.1 hf with rfl | hf
      · cases step with
        | @opened id => exact ⟨congrArg ResourceType.name htype, congrArg (Slot.fresh · id) htype⟩
        | granted => exact ⟨congrArg ResourceType.name htype, hparty⟩
        | queued | gaveUp | returned | notReturned => trivial
      · obtain ⟨-, _, _, _, hdeed⟩ := tells f hf
        rw [hdeed]
        trivial

theorem Caller.Ends.suits {call : CallId} {c : Caller} {fs : List Fact} (h : c.Ends call fs)
    (t : ResourceType) (party : Party) : ∀ f ∈ fs, f.deed.Suits t party := by
  intro f hf
  obtain ⟨before, after, hfs⟩ := List.append_of_mem hf
  obtain ⟨x, deed⟩ := f
  rcases h.cases_of_mem hfs with ⟨-, _, _, _, hdeed⟩ | ⟨_, _, hdeed⟩ | ⟨_, hdeed⟩ |
    ⟨-, _, _, _, _, -, hdeed⟩ <;>
    cases hdeed <;> trivial

namespace History

variable {h : History} {before after : List Action} {call : CallId} {request : Request}
  {typeName : String} {ids : List ResourceId} {party : Party}

/-- A call whose request is no request for permits does no more than a visit. -/
theorem visiting_of_visit (ha : h.actions = before ++ .submit call request :: after)
    (hseeks : request.seeks? = none) {f : Fact} (hf : f ∈ h.facts) (hcall : f.call = call) :
    f.deed.Visiting := by
  obtain ⟨reply, hreply⟩ := Service.exists_answer hseeks (h.start.run before).service call
  have hmem : f ∈ factsOf call h.facts := mem_factsOf.2 ⟨hf, hcall⟩
  rw [factsOf_at_once ha hreply] at hmem
  have hu := unused ha
  have hstep : Step (h.upTo ha).facts (h.start.run before).service call
      ((h.start.run before).service.submit call request) :=
    .submit (h.upTo ha).orderly.registry hu request
  generalize (h.start.run before).service.submit call request = t at hstep hmem
  cases hstep with
  | visit _ visit => exact (visit.facts f hmem).2
  | engage => exact absurd hmem List.not_mem_nil
  | advance working | finish working => cases hu.idle.symm.trans working

/-- Whoever does more than a visit asked for permits and passed the checks, and what it does suits
the type and the party it began with. -/
theorem began_of_mem {f : Fact} (hf : f ∈ h.facts) (hmore : ¬ f.deed.Visiting) :
    ∃ typeName party t, h.Began f.call typeName party t ∧ t.name = typeName ∧
      t.sharingMode = party.mode ∧
      party.listed ≠ [] ∧ f.deed.Suits t party := by
  have hused : ¬ Unused h.facts h.service f.call := fun hu => hu.silent f hf rfl
  obtain ⟨before, request, after, ha⟩ := exists_submit hused
  cases hseeks : request.seeks? with
  | none => exact absurd (visiting_of_visit ha hseeks hf rfl) hmore
  | some asked =>
    obtain ⟨typeName, ids, party⟩ := asked
    have hengage := Service.submit_of_seeks hseeks (h.start.run before).service f.call
    have hchecked := (h.start.run before).service.checked typeName party
    cases hresolve : (h.start.run before).service.resolveFor typeName party with
    | error e =>
      rw [of_refused ha hengage hresolve hf rfl] at hmore
      exact absurd trivial hmore
    | ok type =>
      rw [hresolve] at hchecked
      cases hchecked with
      | passed found fits named =>
        obtain ⟨hname, past, s, he⟩ := engaged_as ha hengage hresolve
        refine ⟨typeName, party, type, ⟨before, request, ids, after, ha, hseeks, ?_⟩, hname,
          fits, named, ?_⟩
        · rw [registered?_eq]
          exact found
        · have hmine : f ∈ factsOf f.call h.facts := mem_factsOf.2 ⟨hf, rfl⟩
          rcases he.leads.working_or_ended he.working with ⟨c, hw⟩ |
            ⟨-, c, own, fs, hstory, ends, hown⟩
          · exact hw.story.suits f hmine
          · rw [hown] at hmine
            rcases List.mem_append.1 hmine with hmine | hmine
            · exact hstory.suits f hmine
            · exact ends.suits type party f hmine

end History

end FairLocks
