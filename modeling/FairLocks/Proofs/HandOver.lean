import Mathlib.Data.Fintype.EquivFin
import FairLocks.Proofs.Commuting
import FairLocks.Proofs.Draining
import FairLocks.Proofs.Wakeups

/-!
# Which permit comes back, and who gets it

An unlock gives back one permit whole: the oldest one that any of the named owners has a part in.
The other permits stay as they are and in their order. Where somebody waits for the resource, the
unlock wakes all of them. Where nobody had a move before, the freed permit is for the head of the
queue: this caller takes it when it moves, and the others, who were woken with it, find nothing and
go back to sleep. Only then does anybody go on.
-/
namespace FairLocks

set_option autoImplicit false

/-- There is always a number that no call has had. -/
theorem exists_unused (past : List Fact) (s : Service) : ∃ call, Unused past s call := by
  obtain ⟨call, hnew⟩ :=
    Infinite.exists_notMem_finset (past.map Fact.call ++ s.callers.keys).toFinset
  rw [List.mem_toFinset, List.mem_append, not_or] at hnew
  exact ⟨call, fun f hf heq => hnew.1 (List.mem_map.2 ⟨f, hf, heq⟩),
    (Dict.get?_eq_none_iff _ _).2 hnew.2⟩

/-- The state shows these permits as the ones that are out, and as owners those that have a part in
one. -/
structure SlotState.Shows (st : SlotState) (out : List Holding) : Prop where
  holders : st.holders = out.map fun g => g.owners.toList
  ascending : st.owners.Pairwise (· < ·)
  owners : ∀ o, o ∈ st.owners ↔ ∃ g ∈ out, o ∈ g.owners

theorem Slot.shows_state (slot : Slot) : slot.state.Shows slot.holdings :=
  ⟨rfl, slot.owners.ascending, fun _ => Slot.mem_state_owners⟩

/-- The call waits at the head of the queue of the slot and is awake. By its move it takes a permit,
which is then the youngest; after it none is free, and this is left of the queue. Who else has a
move stands further back in this queue and only goes back to sleep. -/
structure Service.HandsOver (s : Service) (key : Key) (slot : Slot) (ticket : Nat) (rest : List Nat)
    (x : CallId) (c : Caller) (t : Turn) : Prop where
  working : s.callers.get? x = some c
  waits : s.waits? x = some (key, ticket)
  awake : ticket ∈ slot.awake
  others : ∀ other t', other ≠ x → s.move other = some t' →
    ∃ behind ∈ rest, s.waits? other = some (key, behind) ∧
      t' = ⟨{ s with slots := s.slots.insert key (slot.doze behind) }, []⟩
  moves : s.move x = some t
  slots : t.service.slots = s.slots.insert key { slot with
    holdings := slot.holdings ++ [⟨slot.nextSerial, c.party.owners, x⟩]
    nextSerial := slot.nextSerial + 1
    queue := rest
    available := 0
    awake := rest }
  facts : ∃ budget, t.facts =
    ⟨x, .granted key ticket ⟨slot.nextSerial, c.party.owners, x⟩ c.party budget⟩ ::
      s.announce x .locked ⟨key.1, key.2, c.party.listed⟩

/-- No other call has a move that shows. -/
theorem Service.HandsOver.alone {s : Service} {key : Key} {slot : Slot} {ticket : Nat}
    {rest : List Nat} {x : CallId} {c : Caller} {t : Turn}
    (h : s.HandsOver key slot ticket rest x c t) (found : s.slots.get? key = some slot)
    {other : CallId} (hne : other ≠ x) : s.Silent other := by
  cases moves : s.move other with
  | none => exact silent_of_still moves
  | some t' =>
    obtain ⟨behind, -, waits, rfl⟩ := h.others other t' hne moves
    obtain ⟨c', id, budget, deadline, -, -, rfl⟩ := waits?_eq_some.1 waits
    simp only [Silent, act, moves, Option.getD_some]
    exact doze_roused found behind

/-- A command of which nothing is left but that a permit goes to the head of a queue lets it go
there before anything else. -/
theorem Service.HandsOver.perform {s : Service} {call : CallId} {request : Request} {key : Key}
    {slot : Slot} {ticket : Nat} {rest : List Nat} {x : CallId} {c : Caller} {t : Turn}
    (h : (s.start call request).service.HandsOver key slot ticket rest x c t)
    (found : (s.start call request).service.slots.get? key = some slot)
    (ends : s.Completes call request)
    (orderly : ∃ past, Orderly past (s.start call request).service) :
    ∀ command ∈ [Command.call request, .await request],
      s.perform call command = ((s.start call request).andThen fun _ => t).andThen settle := by
  intro command hcommand
  obtain ⟨past, ho⟩ := orderly
  have hsettle := ho.settle_of_alone h.moves fun other hne => h.alone found hne
  rw [ends.perform command hcommand]
  simp only [Turn.andThen, hsettle, List.append_assoc]

section

variable {past : List Fact} {s : Service} {key : Key} {slot slot' : Slot} {ticket : Nat}
    {rest : List Nat}

/-- When a permit becomes free where nobody has a move, only the head of the queue can take it.
Others may be woken with it, and go back to sleep. -/
theorem Orderly.dozes_of_ne_head (ho : Orderly past s) (settled : s.Settled)
    (found : s.slots.get? key = some slot) (hqueue : slot.queue = ticket :: rest)
    (hslot' : slot'.queue = ticket :: rest) {x other : CallId}
    (waits : s.waits? x = some (key, ticket)) (hne : other ≠ x) {t' : Turn}
    (moves : { s with slots := s.slots.insert key slot' }.move other = some t') :
    ∃ behind ∈ rest, s.waits? other = some (key, behind) ∧
      t' = ⟨{ s with slots := (s.slots.insert key slot').insert key (slot'.doze behind) }, []⟩ := by
  cases working : s.callers.get? other with
  | none =>
    have hidle := @Service.move_of_idle { s with slots := s.slots.insert key slot' } other working
    cases hidle.symm.trans moves
  | some c =>
    have hstill := Service.move_of_settled settled other
    obtain ⟨id, behind, budget, deadline, stage⟩ := Service.waiting_of_still hstill working
    have hwaits : s.waits? other = some (c.keyOf id, behind) :=
      Service.waits?_eq_some.2 ⟨c, id, budget, deadline, working, stage, rfl⟩
    obtain ⟨slot₀, found₀, hbehind⟩ := ho.exists_slot_of_waits hwaits
    have hbefore := (Service.still_iff_of_waiting working stage found₀).1 hstill
    by_cases hkey : c.keyOf id = key
    · -- it waits further back in the same queue
      subst hkey
      cases found.symm.trans found₀
      have hnot : behind ≠ ticket := by
        rintro rfl
        exact hne (ho.ledger.eq_of_mem_line ((ho.lined _ _ _).2 hwaits) ((ho.lined _ _ _).2 waits))
      rw [hqueue] at hbehind
      refine ⟨behind, (List.mem_cons.1 hbehind).resolve_left hnot, hwaits, ?_⟩
      have hunserved : ¬ slot'.Serves behind := by
        rintro ⟨-, hhead⟩
        rw [hslot', List.head?_cons, Option.some.injEq] at hhead
        exact hnot hhead.symm
      exact @Service.eq_doze_of_move { s with slots := s.slots.insert (c.keyOf id) slot' } other c
        id behind budget deadline slot' working stage (Dict.get?_insert_self _ _ _) hunserved
        hbefore.2 t' moves
    · have hsame : (s.slots.insert key slot').get? (c.keyOf id) = some slot₀ :=
        (Dict.get?_insert_of_ne _ _ (Ne.symm hkey)).trans found₀
      have hstill' := (@Service.still_iff_of_waiting { s with slots := s.slots.insert key slot' }
        other c id behind budget deadline slot₀ working stage hsame).2 hbefore
      cases hstill'.symm.trans moves

/-- A permit that becomes free where nobody has a move goes to the head of the queue, if it is
woken. -/
theorem Orderly.handsOver (ho : Orderly past s) (settled : s.Settled)
    (found : s.slots.get? key = some slot) (hqueue : slot.queue = ticket :: rest)
    (hslot' : slot'.queue = ticket :: rest) (hone : slot'.available = 1)
    (hwoken : slot'.awake = ticket :: rest) :
    ∃ x c t, { s with slots := s.slots.insert key slot' }.HandsOver key slot' ticket
      rest x c t := by
  obtain ⟨x, waits⟩ := ho.exists_waits found (by rw [hqueue]; exact List.mem_cons_self)
  obtain ⟨c, id, budget, deadline, working, stage, rfl⟩ := Service.waits?_eq_some.1 waits
  have hserves : slot'.Serves ticket := ⟨by omega, by rw [hslot', List.head?_cons]⟩
  have hawake : ticket ∈ slot'.awake := by
    rw [hwoken]
    exact List.mem_cons_self
  refine ⟨x, c, { s with slots := s.slots.insert (c.keyOf id) slot' }.serve x c id ticket
    budget slot', working, waits, hawake, fun other t' hne moves =>
      ho.dozes_of_ne_head settled found hqueue hslot' waits hne moves,
    ?moves, ?slots, budget, rfl⟩
  case moves =>
    simp only [Service.move, working, stage]
    exact Service.resume_of_serves (Dict.get?_insert_self _ _ _) hserves hawake
  case slots =>
    have hnodup := (ho.ledger.sound _ _ found).nodup_queue
    rw [hqueue, List.nodup_cons] at hnodup
    have hothers : (ticket :: rest).filter (fun y => decide ((ticket :: rest).head? ≠ some y)) =
        rest := by
      rw [List.filter_cons_of_neg (by simp), List.filter_eq_self]
      intro y hy
      have hne : ticket ≠ y := fun heq => hnodup.1 (heq ▸ hy)
      simpa using hne
    simp only [Service.serve, Slot.grant, Slot.wakeIf, hslot', hone, hwoken, hothers,
      List.tail_cons, Nat.sub_self, Nat.lt_irrefl, false_and, if_false]

/-- Where nobody waits for a resource, nobody gets a move by what becomes of its slot. -/
theorem Orderly.settled_insert (ho : Orderly past s) (settled : s.Settled)
    (found : s.slots.get? key = some slot) (nobody : slot.queue = []) (slot' : Slot) :
    Service.Settled { s with slots := s.slots.insert key slot' } := by
  refine settled.congr rfl rfl fun x k ticket hwaits => Dict.get?_insert_of_ne _ _ ?_
  rintro rfl
  obtain ⟨slot₀, found₀, hticket⟩ := ho.exists_slot_of_waits hwaits
  cases found.symm.trans found₀
  rw [nobody] at hticket
  exact List.not_mem_nil hticket

/-- What a request leaves, whichever call makes it, is orderly: a call that is new leaves it. -/
theorem Orderly.exists_orderly (ho : Orderly past s) {request : Request} {s' : Service}
    (hsubmit : ∀ call, (s.submit call request).service = s') : ∃ past', Orderly past' s' := by
  obtain ⟨fresh, unused⟩ := exists_unused past s
  have horderly := ho.step (Step.submit ho.registry unused request)
  rw [hsubmit fresh] at horderly
  exact ⟨_, horderly⟩

end

/-- The permits that are out are those granted and not returned, in the order of the grants. Where
nobody has a move, an unlock in which an owner is named gives back the oldest that a named owner has
a part in, wakes whoever waits for the resource, and changes nothing else. If nobody does, this is
all, and one permit more is free. Otherwise none was free, the head of the queue gets the permit
before anything else happens, and again none is free. The owners that are shown are those of the
permits that are out. -/
theorem oldest_permit_handed_over (h : History) (settled : h.service.Settled) {key : Key}
    {slot : Slot} (found : h.service.slots.get? key = some slot) {party : Party}
    {type : ResourceType} (resolved : h.service.resolveFor key.1 party = .ok type) {o : OwnerId}
    (named : o ∈ party.listed) (owns : o ∈ slot.state.owners) {call : CallId}
    (idle : h.service.callers.get? call = none) :
    slot.holdings = (grantsOn key h.facts).filter (· ∉ returnsOn key h.facts) ∧
    ∃ l g r, slot.holdings = l ++ g :: r ∧ (∀ k ∈ l, ¬ party.Holds k) ∧ party.Holds g ∧
      let t := h.service.start call (.unlock key.1 key.2 party)
      let slot' : Slot := { slot with
        holdings := l ++ r, available := slot.available + 1, awake := slot.queue }
      t = ⟨{ h.service with slots := h.service.slots.insert key slot' },
          ⟨call, .returned key g party⟩ :: h.service.announce call .unlocked
            ⟨key.1, key.2, party.listed⟩ ++
            [⟨call, .answered (.ok .done)⟩]⟩ ∧
        slot'.state.Shows (l ++ r) ∧
        (slot.queue = [] → ∀ command ∈ [Command.call (.unlock key.1 key.2 party),
          .await (.unlock key.1 key.2 party)], h.service.perform call command = t) ∧
        ∀ ticket rest, slot.queue = ticket :: rest → slot.available = 0 ∧
          ∃ x c t', t.service.HandsOver key slot' ticket rest x c t' ∧
            (∀ slot'', t'.service.slots.get? key = some slot'' →
              slot''.state.Shows (l ++ r ++ [⟨slot.nextSerial, c.party.owners, x⟩])) ∧
            ∀ command ∈ [Command.call (.unlock key.1 key.2 party),
              .await (.unlock key.1 key.2 party)],
              h.service.perform call command = (t.andThen fun _ => t').andThen Service.settle := by
  refine ⟨History.holdings_eq found, ?_⟩
  have orderly := h.orderly
  generalize h.service = s at *
  have held : ∃ g ∈ slot.holdings, party.Holds g := by
    obtain ⟨g, hg, ho⟩ := Slot.mem_state_owners.1 owns
    exact ⟨g, hg, o, named, ho⟩
  obtain ⟨g, _, ⟨l, r, hlr, hl, hg, rfl⟩, hsubmit⟩ :=
    Service.submit_unlock_of_held resolved found (orderly.ledger.sound key slot found) held
  have hturn := hsubmit call
  have hstart : s.start call (.unlock key.1 key.2 party) =
      s.submit call (.unlock key.1 key.2 party) := by
    refine Service.start_of_still (Service.move_of_idle ?_)
    rw [hturn]
    exact idle
  have ends : s.Completes call (.unlock key.1 key.2 party) := by
    rw [Service.Completes, hstart, hturn]
    exact idle
  refine ⟨l, g, r, hlr, hl, hg, hstart.trans hturn, Slot.shows_state _, fun hqueue => ?unawaited,
    fun ticket rest hqueue => ?awaited⟩
  case unawaited =>
    have settled' : (s.start call (.unlock key.1 key.2 party)).service.Settled := by
      rw [hstart, hturn]
      exact orderly.settled_insert settled found hqueue _
    exact ends.perform_of_settled settled'
  case awaited =>
    have hfull : slot.available = 0 := by
      rcases orderly.available_or_queue settled found with hfull | hnobody
      · exact hfull
      · rw [hqueue] at hnobody
        cases hnobody
    obtain ⟨x, c, t', hover⟩ := @Orderly.handsOver _ _ _ _
      { slot with holdings := l ++ r, available := slot.available + 1, awake := slot.queue } _ _
      orderly settled found
      hqueue hqueue (by simp [hfull]) hqueue
    have hservice : (s.start call (.unlock key.1 key.2 party)).service =
        { s with slots := s.slots.insert key { slot with
            holdings := l ++ r, available := slot.available + 1, awake := slot.queue } } := by
      rw [hstart, hturn]
    rw [← hservice] at hover
    refine ⟨hfull, x, c, t', hover, fun slot'' hslot'' => ?shows,
      hover.perform ?found ends ?orderly⟩
    case shows =>
      rw [hover.slots, Dict.get?_insert_self] at hslot''
      cases hslot''
      exact Slot.shows_state _
    case found =>
      rw [hservice]
      exact Dict.get?_insert_self _ _ _
    case orderly =>
      exact orderly.exists_orderly fun x => by rw [hsubmit x, ← hservice]

/-- Two groups that have owner 7 in common hold a document, and two more wait for it, one of them
until the instant 50. -/
def groupsInLine : History where
  start := .withType ⟨"doc", 2, .sharedGroup⟩
  actions := [.submit 1 (.lock "doc" 1 (.group [9, 7])), .move 1, .move 1,
    .submit 2 (.lock "doc" 1 (.group [7, 3])), .move 2, .move 2,
    .submit 3 (.lock "doc" 1 (.group [8, 1])), .move 3,
    .submit 4 (.tryLock "doc" 1 (.group [2]) 50), .move 4]
  isNew := Service.new_groupDoc
  numbered := by decide

/-- A stranger and a member of the second group unlock: the second group loses its permit, the first
keeps its own, owner 7 included, and the group that came before the other gets the one that was
freed. -/
theorem oldest_permit_handed_over_groupsInLine :
    ∃ t slot, (groupsInLine.service.start 5 (.unlock "doc" 1 (.group [5, 3]))).service.move 3 =
      some t ∧
      groupsInLine.service.perform 5 (.await (.unlock "doc" 1 (.group [5, 3]))) =
        ((groupsInLine.service.start 5 (.unlock "doc" 1 (.group [5, 3]))).andThen fun _ =>
          t).andThen Service.settle ∧
      t.service.slots.get? ("doc", 1) = some slot ∧ slot.state.holders = [[7, 9], [1, 8]] ∧
      slot.available = 0 ∧ slot.queue = [3] := by
  have settled : groupsInLine.service.Settled := Service.firstMove_eq_none_iff.1 rfl
  obtain ⟨-, l, g, r, hlr, hl, hg, -, -, -, hover⟩ :=
    @oldest_permit_handed_over groupsInLine settled ("doc", 1) _ rfl
    (.group [5, 3]) _ rfl 3 (by decide) (by decide) 5 rfl
  obtain ⟨-, x, c, t, hhands, -, hperform⟩ := hover 2 [3] rfl
  obtain rfl : 3 = x := by
    by_contra hne
    obtain ⟨behind, hbehind, hwaits, -⟩ := hhands.others 3 _ hne rfl
    rw [List.mem_singleton.1 hbehind] at hwaits
    cases hwaits
  -- the first group does not hold the permit that is given back, so the second does
  obtain ⟨first, rfl, rfl⟩ : ∃ first, l = [first] ∧ r = [] := by
    rcases l with _ | ⟨first, _ | ⟨second, l⟩⟩
    · cases hlr
      exact absurd hg (by decide)
    · cases hlr
      exact ⟨_, rfl, rfl⟩
    · cases l <;> cases hlr
  cases hlr
  cases (show _ = some _ from rfl).symm.trans hhands.working
  have hslot := congrArg (fun slots => slots.get? ("doc", 1)) hhands.slots
  rw [Dict.get?_insert_self] at hslot
  exact ⟨t, _, hhands.moves, hperform _ (List.mem_cons_of_mem _ List.mem_cons_self), hslot,
    rfl, rfl, rfl⟩

end FairLocks
