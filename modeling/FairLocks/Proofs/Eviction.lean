import FairLocks.Proofs.Provenance
import FairLocks.Proofs.Sessions
import FairLocks.Proofs.Tickets
import FairLocks.Proofs.Twins
import FairLocks.Service.Progress

/-!
# An eviction more makes no difference

Idle slots are dropped once more, somewhere in a history. If no type name is registered twice, a
slot that is dropped is made again as it was; and if nobody may have to give back a permit when
slots are dropped, no rollback finds another permit under the number of one that is gone. Then the
two services are twins whatever follows, so that everything but the slots themselves looks the same,
and a session goes on in the same way.
-/
namespace FairLocks

set_option autoImplicit false

/-- The fact tells that a type took the place of another of its name. -/
def Fact.replaces (f : Fact) : Bool :=
  match f.deed with
  | .registered _ (some _) => true
  | _ => false

/-- No type name is registered twice. -/
def History.Once (h : History) : Prop := ∀ f ∈ h.facts, f.replaces = false

/-- No call may have to give back a permit: no timed call for several resources has taken one that
it still has. -/
def Service.NothingPending (s : Service) : Prop :=
  ∀ call c, s.callers.get? call = some c → c.returning = []

/-- Nothing is pending where everybody at work waits, and nobody in a timed call for several
resources. -/
theorem Service.nothingPending_of_waiting {s : Service}
    (hwait : ∀ call c, s.callers.get? call = some c →
    (∃ id ticket budget deadline, c.stage = .waiting id ticket budget deadline) ∧
      ¬ c.goal.AllOrNone) :
    s.NothingPending := by
  intro call c hc
  obtain ⟨⟨id, ticket, budget, deadline, stage⟩, hgroup⟩ := hwait call c hc
  refine Caller.returning_of_single (fun timeout spending detailed hgoal => hgroup ?_)
    (Caller.taking_waiting stage)
  exact ⟨timeout, spending, detailed, hgoal⟩

/-- Who holds a resource and how many wait for it. -/
structure Occupancy where
  /-- The owners of each permit that is out, oldest first. -/
  holders : List OwnerSet
  owners : OwnerSet
  held : Nat
  waiting : Nat

/-- A resource without a slot is free. -/
def Service.occupancy (s : Service) (key : Key) : Occupancy :=
  match s.slots.get? key with
  | none => ⟨[], ∅, 0, 0⟩
  | some slot =>
    ⟨slot.holdings.map Holding.owners, slot.owners, slot.capacity - slot.available,
      slot.queue.length⟩

/-- The second service looks the same as the first to all who do not look at the slots
themselves. -/
structure Unaffected (s s' : Service) : Prop where
  registry : s.registry = s'.registry
  groupTimeout : s.groupTimeout = s'.groupTimeout
  listeners : s.listeners = s'.listeners
  listening : s.listening = s'.listening
  clock : s.clock = s'.clock
  calls : s.callers.keys = s'.callers.keys
  callers : ∃ o, ∀ call, Option.Rel (Caller.Twin o) (s.callers.get? call) (s'.callers.get? call)
  occupancy : ∀ key, s.occupancy key = s'.occupancy key
  moves : ∀ call,
    Option.Rel (fun t t' => ∃ o, visible t.facts = (visible t'.facts).map (Fact.shift o))
      (s.move call) (s'.move call)

/-- Through these actions the second service looks the same as the first, and each action leaves the
same facts, but for the numbers of permits and tickets and for slots that are made again, and but
for what reveals the slots. -/
def UnaffectedThrough (s s' : Service) : List Action → Prop
  | [] => Unaffected s s'
  | a :: as => Unaffected s s' ∧
      (∃ o, List.Forall₂ (fun f f' => f = f'.shift o ∨ a.Reveals s f f') (visible (s.act a).facts)
        (visible (s'.act a).facts)) ∧
      UnaffectedThrough (s.act a).service (s'.act a).service as

/-- The action takes the place of no type, and drops slots only where nobody may have to give back a
permit. -/
def Service.Spares (s : Service) (a : Action) : Prop :=
  (∀ f ∈ (s.act a).facts, f.replaces = false) ∧
    ∀ call, a = .submit call .evictIdle → s.NothingPending

/-- A type stays registered as long as no other takes its place. -/
theorem Service.get?_types_run {s : Service} {as : List Action} {name : String} {t : ResourceType}
    (honce : ∀ f ∈ (s.run as).facts, f.replaces = false)
    (ht : s.registry.types.get? name = some t) :
    (s.run as).service.registry.types.get? name = some t := by
  induction as generalizing s with
  | nil => exact ht
  | cons a as ih =>
    rw [facts_run_cons] at honce
    rw [service_run_cons]
    refine ih (fun f hf => honce f (List.mem_append_right _ hf)) ?_
    rcases registry_act s a with ⟨hsame, -⟩ | ⟨call, type, -, -, hact⟩
    · rw [hsame, ht]
    · have hnew := honce ⟨call, .registered type (s.registry.types.get? type.name)⟩
        (List.mem_append_left _ (by rw [hact]; exact List.mem_cons_self))
      have hne : type.name ≠ name := by
        rintro rfl
        simp [Fact.replaces, ht] at hnew
      rw [hact]
      exact (Dict.get?_insert_of_ne _ _ hne).trans ht

namespace Service.Twin

variable {o : Key → Shift} {s s' : Service}

theorem nothingPending (h : s.Twin o s') (hs : s.NothingPending) : s'.NothingPending := by
  intro call c' hc'
  obtain ⟨c, hc, taken, -, -, hshifted⟩ := h.caller hc'
  rw [hs call c hc, eq_comm, List.map_eq_nil_iff] at hshifted
  exact hshifted

/-- Who holds a resource and who waits for it is the same; a slot that is missing is free. -/
theorem occupancy_eq (h : s.Twin o s') (key : Key) : s.occupancy key = s'.occupancy key := by
  unfold occupancy
  cases found : s'.slots.get? key with
  | some slot' =>
    simp only [h.present key slot' found, Slot.map_owners_shift, Slot.owners_shift,
      Slot.length_queue_shift]
    rfl
  | none =>
    cases hslot : s.slots.get? key with
    | none => rfl
    | some slot =>
      obtain ⟨havailable, hholdings, hqueue⟩ := h.missing key slot found hslot
      simp only [Slot.owners, havailable, hholdings, hqueue, Nat.sub_self]
      rfl

/-- What is read off the callers in a way that no number shows is the same. -/
theorem values_eq {β : Type} {g g' : Caller → β} (h : s.Twin o s')
    (hg : ∀ call c c', s'.callers.get? call = some c' → c.Twin o c' → g c = g' c') :
    s.callers.entries.map (fun e => g e.2) = s'.callers.entries.map fun e => g' e.2 := by
  have hvalues (g : Caller → β) (d : Dict CallId Caller) :
      (d.entries.map fun e => g e.2).map some = d.keys.map fun k => (d.get? k).map g := by
    rw [Dict.keys, List.map_map, List.map_map]
    refine List.map_congr_left fun e he => ?_
    simp only [Function.comp_apply, Dict.get?_of_mem he, Option.map_some]
  refine List.map_injective_iff.2 (fun _ _ => Option.some.inj) ?_
  rw [hvalues, hvalues, h.keys]
  refine List.map_congr_left fun k _ => ?_
  cases working' : s'.callers.get? k with
  | none => rw [h.caller_none working']; rfl
  | some c' =>
    obtain ⟨c, working, hc⟩ := h.caller working'
    rw [working, Option.map_some, Option.map_some, hg k c c' working' hc]

/-- The same callers are awake. -/
theorem isAwake_eq (h : s.Twin o s') (hqueued : s'.Queued) {call : CallId} {c c' : Caller}
    (working' : s'.callers.get? call = some c') (hc : c.Twin o c') :
    s.isAwake c = s'.isAwake c' := by
  cases stage : c'.stage with
  | next => simp only [isAwake, stage, hc.stage_next stage]
  | undoing failed left error => simp only [isAwake, stage, hc.stage_undoing stage]
  | waiting id ticket budget deadline =>
    obtain ⟨slot', found⟩ := hqueued call _ ticket
      (waits?_eq_some.2 ⟨c', id, budget, deadline, working', stage, rfl⟩)
    have hkey : c.keyOf id = c'.keyOf id := by rw [Caller.keyOf, hc.type_eq, Caller.keyOf]
    simp only [isAwake, stage, hc.stage_waiting stage, hkey, h.present _ _ found, found,
      Option.any_some, Slot.mem_awake_shift]

theorem work_eq (h : s.Twin o s') (hqueued : s'.Queued) : s.work = s'.work := by
  apply work_congr
  refine @values_eq o s s' _ (fun c => (c.work, s.isAwake c)) (fun c => (c.work, s'.isAwake c)) h
    fun call c c' working' hc => ?_
  rw [hc.work_eq, h.isAwake_eq hqueued working' hc]

theorem nextDeadline?_eq (h : s.Twin o s') : s.nextDeadline? = s'.nextDeadline? :=
  nextDeadline?_congr (@values_eq o s s' _ Caller.deadline? Caller.deadline? h fun _ _ _ _ hc =>
    hc.deadline?_eq)

end Service.Twin

namespace History

variable {h : History} {before after : List Action} {call : CallId}

/-- Whoever is at work asked for permits of its type as it was registered then. -/
theorem began_of_working {c : Caller} (working : h.service.callers.get? call = some c) :
    ∃ party, h.Began call c.type.name party c.type := by
  have hused : ¬ Unused h.facts h.service call := fun hu => by
    rw [hu.idle] at working
    cases working
  obtain ⟨before, request, after, ha⟩ := exists_submit hused
  have hatwork (reply : Reply) :
      ⟨call, .answered reply⟩ ∉ ((h.start.run before).service.submit call request).facts :=
        fun hreply => by
    have hgone := gone_of_answered (mem_facts_of_act ha hreply)
    rw [hgone.idle] at working
    cases working
  cases hseeks : request.seeks? with
  | none =>
    obtain ⟨reply, hreply⟩ := Service.exists_answer hseeks (h.start.run before).service call
    exact absurd hreply (hatwork reply)
  | some asked =>
    obtain ⟨typeName, ids, party⟩ := asked
    have hengage := Service.submit_of_seeks hseeks (h.start.run before).service call
    have hchecked := (h.start.run before).service.checked typeName party
    cases hresolve : (h.start.run before).service.resolveFor typeName party with
    | error e =>
      refine absurd ?_ (hatwork (.error e))
      rw [hengage, Service.engage, hresolve]
      exact List.mem_cons_self
    | ok type =>
      rw [hresolve] at hchecked
      cases hchecked with
      | passed found fits named =>
        obtain ⟨hname, past, s, he⟩ := engaged_as ha hengage hresolve
        rcases he.leads.working_or_gone he.working with ⟨c', hw⟩ | hgone
        · cases working.symm.trans hw.working
          have htype : c.type = type := hw.story.keeps.1
          refine ⟨party, before, request, ids, after, ha, ?_, ?_⟩
          · rw [hseeks, htype, hname]
          · rw [registered?_eq, htype, hname]
            exact found
        · rw [hgone.idle] at working
          cases working

/-- Where no name is registered twice, whoever began finds the type still registered. -/
theorem Once.get?_of_began (honce : h.Once) {typeName : String} {party : Party} {t : ResourceType}
    (hb : h.Began call typeName party t) : h.service.registry.types.get? typeName = some t := by
  obtain ⟨before, request, ids, after, ha, -, ht⟩ := hb
  rw [registered?_eq] at ht
  rw [service, ha, Service.service_run_append]
  refine Service.get?_types_run (fun f hf => honce f ?_) ht
  rw [facts, ha, Service.facts_run_append]
  exact List.mem_append_right _ hf

/-- Where no name is registered twice, every slot is as any caller would make it. -/
theorem Once.uniform (honce : h.Once) : h.service.Uniform := by
  intro call c id slot working hslot
  obtain ⟨party, hbegan⟩ := began_of_working working
  obtain ⟨p, m, maker, party', made, -, -, hmade, hcapacity, hmode⟩ := slot_origin hslot
  have htype := honce.get?_of_began hbegan
  cases htype.symm.trans (honce.get?_of_began hmade)
  exact ⟨hcapacity, hmode⟩

theorem queued (h : History) : h.service.Queued := by
  intro call key ticket hwaits
  obtain ⟨slot, hslot, -⟩ := h.orderly.exists_slot_of_waits hwaits
  exact ⟨slot, hslot⟩

/-- The history in which one more action follows. -/
def snoc (h : History) (a : Action)
    (ha : (h.actions.filterMap Action.number? ++ a.number?.toList).Nodup) : History where
  start := h.start
  actions := h.actions ++ [a]
  isNew := h.isNew
  numbered := by
    rw [List.filterMap_append]
    cases a <;> exact ha

variable {a : Action} (ha : (h.actions.filterMap Action.number? ++ a.number?.toList).Nodup)

theorem service_snoc : (h.snoc a ha).service = (h.service.act a).service :=
  Service.service_run_snoc _ _ _

theorem Once.snoc (honce : h.Once) (hspares : h.service.Spares a) : (h.snoc a ha).Once := by
  intro f hf
  rw [facts, History.snoc, Service.facts_run_snoc] at hf
  rcases List.mem_append.1 hf with hf | hf
  · exact honce f hf
  · exact hspares.1 f hf

end History

/-- Histories of calls with these numbers lead to the services, the first of which is the twin of
the second. -/
def Service.Beside (used : List CallId) (s s' : Service) : Prop :=
  ∃ h h' : History, h.Once ∧ h.service = s ∧ h'.service = s' ∧
    h.actions.filterMap Action.number? ⊆ used ∧
    h'.actions.filterMap Action.number? ⊆ used ∧ ∃ o, s.Twin o s'

namespace Service

variable {used : List CallId} {s s' : Service}

theorem Beside.twin (h : Beside used s s') : ∃ o, s.Twin o s' := by
  obtain ⟨_, _, _, _, _, _, _, htwin⟩ := h
  exact htwin

theorem Beside.queued (h : Beside used s s') : s'.Queued := by
  obtain ⟨_, h', _, _, rfl, _⟩ := h
  exact h'.queued

theorem Beside.twin_move (h : Beside used s s') (excused : Fact → Fact → Prop) (call : CallId) :
    Option.Rel (Turn.Twin excused) (s.move call) (s'.move call) := by
  obtain ⟨h, h', honce, rfl, rfl, -, -, o, htwin⟩ := h
  exact htwin.move h'.queued h.orderly.ledger.keyed h.orderly.ledger.sound honce.uniform call

/-- The same is done next, but for what reveals the slots. -/
theorem Beside.twin_act (h : Beside used s s') {a : Action} (hspares : s.Spares a) :
    (s.act a).Twin (a.Reveals s) (s'.act a) := by
  obtain ⟨h, h', honce, rfl, rfl, -, -, o, htwin⟩ := h
  exact htwin.act h'.queued h.orderly.ledger.keyed h.orderly.ledger.sound honce.uniform a
    fun call heq => htwin.nothingPending (hspares.2 call heq)

theorem Beside.act (h : Beside used s s') {a : Action} (hfresh : (used ++ a.number?.toList).Nodup)
    (hspares : s.Spares a) : Beside (used ++ a.number?.toList) (s.act a).service
      (s'.act a).service := by
  obtain ⟨o, htwin, -⟩ := h.twin_act hspares
  obtain ⟨h, h', honce, rfl, rfl, hused, hused', -⟩ := h
  have hnumbered (h : History) (hused : h.actions.filterMap Action.number? ⊆ used) :
      (h.actions.filterMap Action.number? ++ a.number?.toList).Nodup := by
    obtain ⟨-, hnumber, hnew⟩ := List.nodup_append.1 hfresh
    exact List.nodup_append.2 ⟨h.numbered, hnumber, fun x hx => hnew x (hused hx)⟩
  have hmore (h : History) (hused : h.actions.filterMap Action.number? ⊆ used) :
      (h.snoc a (hnumbered h hused)).actions.filterMap Action.number? ⊆ used ++
        a.number?.toList := by
    change (h.actions ++ [a]).filterMap Action.number? ⊆ _
    rw [List.filterMap_append]
    refine List.append_subset.2 ⟨fun x hx => List.mem_append_left _ (hused hx), ?_⟩
    cases a <;> exact List.subset_append_right _ _
  exact ⟨h.snoc a (hnumbered h hused), h'.snoc a (hnumbered h' hused'), honce.snoc _ hspares,
    History.service_snoc _, History.service_snoc _, hmore h hused, hmore h' hused', o, htwin⟩

/-- Only a request registers a type or drops slots. -/
theorem spares_of_unasked {a : Action} (ha : a.number? = none) : s.Spares a := by
  refine ⟨fun f hf => ?_, fun call heq => ?_⟩
  · rcases registry_act s a with ⟨-, hnone⟩ | ⟨call, type, rfl, -⟩
    · have hregisters := hnone f hf
      obtain ⟨call, deed⟩ := f
      cases deed <;> first | rfl | cases hregisters
    · cases ha
  · rw [heq] at ha
    cases ha

theorem lockstep_beside : Lockstep Beside Spares where
  keys := fun used s s' h => h.twin.elim fun _ htwin => htwin.keys
  work := fun used s s' h => h.twin.elim fun _ htwin => htwin.work_eq h.queued
  clock := fun used s s' h => h.twin.elim fun _ htwin => htwin.clock
  deadline := fun used s s' h => h.twin.elim fun _ htwin => htwin.nextDeadline?_eq
  moves := by
    intro used s s' h call
    have hrel := h.twin_move (fun _ _ => True) call
    generalize s.move call = m at hrel ⊢
    generalize s'.move call = m' at hrel ⊢
    cases hrel <;> rfl
  act := fun used s s' h a hfresh hspares => h.act hfresh hspares
  unasked := fun s a ha => spares_of_unasked ha

theorem Beside.unaffected (h : Beside used s s') : Unaffected s s' := by
  have hmoves (call : CallId) := h.twin_move (fun _ _ => False) call
  obtain ⟨o, htwin⟩ := h.twin
  refine ⟨htwin.registry, htwin.groupTimeout, htwin.listeners, htwin.listening,
    htwin.clock, htwin.keys, ⟨o, htwin.callers⟩, htwin.occupancy_eq, fun call => ?_⟩
  have hrel := hmoves call
  generalize s.move call = m at hrel ⊢
  generalize s'.move call = m' at hrel ⊢
  cases hrel with
  | none => exact .none
  | some hturn =>
    obtain ⟨o', -, hfacts⟩ := hturn
    refine .some ⟨o', ?_⟩
    simp only [or_false] at hfacts
    rwa [← List.forall₂_map_right_iff, List.forall₂_eq_eq_eq] at hfacts

/-- What goes on beside each other looks the same all along. -/
theorem Beside.unaffectedThrough {as : List Action} (h : Beside used s s')
    (hfresh : (used ++ as.filterMap Action.number?).Nodup) (hall : s.Each Spares as) :
    UnaffectedThrough s s' as := by
  induction as generalizing used s s' with
  | nil => exact h.unaffected
  | cons a as ih =>
    obtain ⟨hspares, hmore⟩ := hall
    have hnumbers : (a :: as).filterMap Action.number? =
        a.number?.toList ++ as.filterMap Action.number? := by
      cases a <;> rfl
    rw [hnumbers, ← List.append_assoc] at hfresh
    obtain ⟨o, -, hfacts⟩ := h.twin_act hspares
    exact ⟨h.unaffected, ⟨o, hfacts⟩, ih (h.act (List.nodup_append.1 hfresh).1 hspares)
      hfresh hmore⟩

end Service

/-- Dropping the idle slots, and no others, once more makes no difference to what comes after, as
long as no type name is registered twice and no timed call for several resources has a permit that
it may have to give back, now or when idle slots are dropped later on (so it is where all who are at
work wait, and none of them in such a call). At every moment the registry, the listeners, the clock
and the calls at work are the same, each call stands where it stood, and every resource has the same
holders and as many who wait; whoever has a move has it in both services. Every action leaves the
same facts, but for the numbers of permits and tickets and for slots that are made again, and but
for what reveals the slots: how many there are, how many were dropped, and that a free slot is
shown, or blamed for an owner that does not hold it, as one that was never locked. This is so
however the callers take turns; and a session goes on by the same actions. -/
theorem eviction_transparent {h : History} {n : CallId} (honce : h.Once)
    (hnow : h.service.NothingPending) :
    let s := h.service
    let s' := (s.submit n .evictIdle).service
    let used := h.actions.filterMap Action.number? ++ [n]
    (∀ key slot, s'.slots.get? key = some slot ↔ s.slots.get? key = some slot ∧ ¬ slot.Idle) ∧
    (∀ as : List Action, (used ++ as.filterMap Action.number?).Nodup → s.Each Service.Spares as →
      UnaffectedThrough s s' as) ∧
    ∀ l : List (CallId × Command), (used ++ l.flatMap fun c => c.2.numbers c.1).Nodup →
      s.EachRequest Service.Spares l →
      ∃ ass : List (List Action), s.session l = s.turns ass ∧ s'.session l = s'.turns ass ∧
        UnaffectedThrough s s' ass.flatten := by
  intro s s' used
  have hbeside (hused : used.Nodup) : Service.Beside used s s' := by
    refine ⟨h, h.snoc (.submit n .evictIdle) hused, honce, rfl, History.service_snoc _,
      List.subset_append_left _ _, ?_, fun _ => .zero, Service.Twin.evicted n hnow⟩
    change (h.actions ++ [Action.submit n .evictIdle]).filterMap Action.number? ⊆ used
    rw [List.filterMap_append]
    exact fun x hx => hx
  refine ⟨fun key slot => Service.get?_evictIdle_eq_some, ?_, ?_⟩
  · intro as hfresh hall
    exact (hbeside (List.nodup_append.1 hfresh).1).unaffectedThrough hfresh hall
  · intro l hfresh hall
    have hnow := hbeside (List.nodup_append.1 hfresh).1
    obtain ⟨ass, hmade, hturns, -, heach, hsame⟩ := Service.lockstep_beside.turns_session hall
    refine ⟨ass, hturns, hsame used s' hnow hfresh, hnow.unaffectedThrough ?_ heach⟩
    rw [hmade]
    exact hfresh

/-- A document is locked and unlocked again; another is locked, and somebody waits for it. -/
def takenAgain : History where
  start := .withType ⟨"doc", 1, .exclusivePerOwner⟩
  actions := [.submit 1 (.lock "doc" 1 (.owner 1)), .move 1, .move 1,
    .submit 2 (.lock "doc" 2 (.owner 8)), .move 2, .move 2, .submit 3 (.lock "doc" 2 (.owner 5)),
    .move 3, .submit 4 (.unlock "doc" 1 (.owner 1))]
  isNew := Service.new_doc
  numbered := by decide

/-- The first document is looked for, unlocked in vain and taken again; idle slots are dropped
before whoever waits for the second gets it. -/
def takenAgainLater : List (CallId × Command) :=
  [(10, .call (.slotState ("doc", 1))), (11, .call (.unlock "doc" 1 (.owner 1))),
    (12, .await (.lock "doc" 1 (.owner 2))), (13, .call .evictIdle),
    (14, .call (.unlock "doc" 2 (.owner 8)))]

/-- After an eviction the first document looks as if it had never been locked; all else is the same,
and who waits is served. -/
theorem eviction_transparent_takenAgain :
    takenAgain.Once ∧ takenAgain.service.NothingPending ∧
    takenAgain.service.EachRequest Service.Spares takenAgainLater ∧
    ∃ s s', s = takenAgain.service ∧ s' = (s.submit 9 .evictIdle).service ∧
      (∃ ass, s.session takenAgainLater = s.turns ass ∧ s'.session takenAgainLater = s'.turns ass ∧
        UnaffectedThrough s s' ass.flatten) ∧
      ((s.session takenAgainLater).flatMap Turn.facts).filterMap Fact.reply? =
        [(10, .ok (.state ⟨"doc", 1, .exclusivePerOwner, 1, 1, [], [], 0⟩)),
          (11, .error (.notOwner ("doc", 1) [1])), (12, .ok .done), (13, .ok (.count 0)),
            (14, .ok .done),
          (3, .ok .done)] ∧
      ((s'.session takenAgainLater).flatMap Turn.facts).filterMap Fact.reply? =
        [(10, .error (.neverLocked ("doc", 1))), (11, .error (.neverLocked ("doc", 1))),
          (12, .ok .done), (13, .ok (.count 0)), (14, .ok .done), (3, .ok .done)] := by
  have honce : takenAgain.Once := fun f hf => by
    have hall : takenAgain.facts.all (fun f => !f.replaces) = true := rfl
    simpa using List.all_eq_true.1 hall f hf
  -- one call waits, for a permit that it will keep
  let waits : Caller := ⟨⟨"doc", 1, .exclusivePerOwner⟩, .owner 5, .hold, 0, [], [],
    .waiting 2 1 none none⟩
  have hpending {s : Service} (hcallers : s.callers = (∅ : Dict CallId Caller).insert 3 waits) :
      s.NothingPending := by
    refine Service.nothingPending_of_waiting fun call c hc => ?_
    rw [hcallers, Dict.get?_insert] at hc
    split at hc
    · cases hc
      refine ⟨⟨2, 1, none, none, rfl⟩, ?_⟩
      rintro ⟨_, _, _, hgoal⟩
      cases hgoal
    · cases hc
  have hnow : takenAgain.service.NothingPending := hpending rfl
  have hspares {s : Service} {a : Action} (hall : (s.act a).facts.all (fun f => !f.replaces) = true)
      (hevicts : ∀ call, a = .submit call .evictIdle → s.NothingPending) : s.Spares a :=
    ⟨fun f hf => by simpa using List.all_eq_true.1 hall f hf, hevicts⟩
  have hall : takenAgain.service.EachRequest Service.Spares takenAgainLater := by
    refine ⟨⟨hspares rfl ?_, trivial⟩, ⟨hspares rfl ?_, trivial⟩, ⟨hspares rfl ?_, trivial⟩,
      ⟨hspares rfl fun _ _ => hpending rfl, trivial⟩, ⟨hspares rfl ?_, trivial⟩, trivial⟩ <;> simp
  exact ⟨honce, hnow, hall, _, _, rfl, rfl, (eviction_transparent honce hnow).2.2 _
    (by decide) hall, rfl, rfl⟩

end FairLocks
