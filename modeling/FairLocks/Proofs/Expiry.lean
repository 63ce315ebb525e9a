import FairLocks.Proofs.Deletion
import FairLocks.Proofs.Served

/-!
# A call that waited in vain leaves no trace

A call for one resource that was not to be had in time is taken out of a history with all its
actions, while time passes as before. What is left is a history in which the others find and do the
same: while the call stands in a queue no permit is free for it, so it is in nobody's way, and it
leaves behind nothing but the number of its ticket. The invariant says that the history without the
call is at each moment in the state of the first one without the call and its ticket.
-/
namespace FairLocks

set_option autoImplicit false

/-- The call makes the action. -/
def Action.madeBy (x : CallId) : Action → Bool
  | submit call _ => decide (call = x)
  | move call => decide (call = x)
  | pass _ => false

/-- The actions that the call does not make. -/
def withoutCall (x : CallId) (as : List Action) : List Action := as.filter fun a => !a.madeBy x

theorem withoutCall_snoc_own {x : CallId} {a : Action} (ha : a.madeBy x = true) (as : List Action) :
    withoutCall x (as ++ [a]) = withoutCall x as := by
  simp [withoutCall, ha]

theorem withoutCall_snoc_other {x : CallId} {a : Action} (ha : a.madeBy x = false)
    (as : List Action) :
    withoutCall x (as ++ [a]) = withoutCall x as ++ [a] := by
  simp [withoutCall, ha]

/-- The history in which the call is not made; time passes as before. -/
def History.without (h : History) (x : CallId) : History where
  start := h.start
  actions := withoutCall x h.actions
  isNew := h.isNew
  numbered := h.numbered.sublist (List.filter_sublist.filterMap _)

/-- The call asked for one resource and was told that it could not be had in time. -/
structure Expired (h : History) (x : CallId) : Prop where
  asked : ∃ typeName id party timeout, .submit x (.tryLock typeName id party timeout) ∈ h.actions
  answered : ⟨x, .answered (.ok (.flag false))⟩ ∈ h.facts

/-- What a call leaves that waits in vain. -/
def Deed.InVain : Deed → Prop
  | queued _ _ _ waits => waits = true
  | gaveUp _ _ _ _ => True
  | answered reply => reply = .ok (.flag false)
  | _ => False

/-- The turn of the call leaves nothing but that, and without the call and its ticket the service
stays as it was. -/
structure Turn.InVain (x : CallId) (past : List Fact) (s : Service) (t : Turn) : Prop where
  service : t.service.without x (drawnBy x (past ++ t.facts)) = s.without x (drawnBy x past)
  facts : ∀ f ∈ t.facts, f.deed.InVain

/-- How often the call stands in the queue of the resource. -/
def Service.present (s : Service) (x : CallId) (key : Key) : Nat :=
  if (s.waits? x).map Prod.fst = some key then 1 else 0

theorem Service.present_le_one (s : Service) (x : CallId) (key : Key) : s.present x key ≤ 1 := by
  unfold present
  split
  · exact Nat.le_refl 1
  · exact Nat.zero_le 1

/-- The second service is the first without the call. The slots are the same but for the queues,
where the call is missing, and for who is awake. Whoever else moves next does the same in both: who
was woken in one of them only finds that it must wait on, and goes back to sleep without a trace. -/
structure Unseen (x : CallId) (s s' : Service) : Prop where
  registry : s'.registry = s.registry
  groupTimeout : s'.groupTimeout = s.groupTimeout
  listeners : s'.listeners = s.listeners
  listening : s'.listening = s.listening
  clock : s'.clock = s.clock
  keys : s'.slots.keys = s.slots.keys
  slots : ∀ key slot, s.slots.get? key = some slot → ∃ queue nextTicket awake,
    s'.slots.get? key = some { slot with queue, nextTicket, awake } ∧
      slot.queue.length = queue.length + s.present x key
  callers : s'.callers.keys = s.callers.keys.filter (· ≠ x)
  moves : ∀ y, y ≠ x →
    List.Forall₂ (Fact.Alike (s.present x)) (s.act (.move y)).facts (s'.act (.move y)).facts

/-- A move that leaves no fact is to go back to sleep. -/
theorem Service.dozes_of_untold {s : Service} {y : CallId} {t : Turn} (moves : s.move y = some t)
    (untold : t.facts = []) :
    ∃ key ticket slot, s.waits? y = some (key, ticket) ∧ s.slots.get? key = some slot ∧
      ¬ slot.Serves ticket ∧
      t.service = { s with slots := s.slots.insert key (slot.doze ticket) } := by
  cases moved moves with
  | dozes working stage found waits =>
    exact ⟨_, _, _, waits?_eq_some.2 ⟨_, _, _, _, working, stage, rfl⟩, found, waits, rfl⟩
  | succeeds => cases untold
  | enters =>
    unfold enter at untold
    dsimp only at untold
    split at untold <;> cases (List.append_eq_nil_iff.1 untold).2
  | takes => cases untold
  | givesUp => cases untold
  | undoes =>
    unfold undo at untold
    dsimp only at untold
    split at untold
    · rename_i hback
      obtain ⟨slot, g, slot', told, -, -, -, rfl⟩ := giveBack_ok hback
      cases untold
    · cases untold
  | undone =>
    unfold undone at untold
    split at untold <;> cases untold

/-- Who has a move in only one of the two goes back to sleep by it. -/
theorem Unseen.dozes {x y : CallId} {s s' : Service} (h : Unseen x s s') (hne : y ≠ x) {t : Turn}
    {before : Service} (moves : before.move y = some t)
    (one : before = s ∧ s'.move y = none ∨ before = s' ∧ s.move y = none) :
    ∃ key ticket slot, before.waits? y = some (key, ticket) ∧
      before.slots.get? key = some slot ∧ ¬ slot.Serves ticket ∧
      t.service = { before with slots := before.slots.insert key (slot.doze ticket) } := by
  have hmoves := h.moves y hne
  refine Service.dozes_of_untold moves ?_
  rcases one with ⟨rfl, still⟩ | ⟨rfl, still⟩
  · simp only [Service.act, moves, still, Option.getD_some, Option.getD_none,
      Service.rest] at hmoves
    exact List.forall₂_nil_right_iff.1 hmoves
  · simp only [Service.act, moves, still, Option.getD_some, Option.getD_none,
      Service.rest] at hmoves
    exact List.forall₂_nil_left_iff.1 hmoves

section

variable {past : List Fact} {s : Service} {x y : CallId} {key : Key}

theorem drawnBy_eq_none (h : ∀ f ∈ past, f.call = x → f.queue? = none) (key : Key) :
    drawnBy x past key = none := by
  induction past using List.reverseRecOn with
  | nil => rfl
  | append_singleton past f ih =>
    have hbefore := ih fun g hg => h g (List.mem_append_left _ hg)
    have hf := h f (List.mem_append_right _ List.mem_cons_self)
    rw [drawnBy_append, List.foldl_cons, List.foldl_nil, hbefore]
    obtain ⟨call, deed⟩ := f
    cases deed with
    | queued k ticket ahead waits =>
      have hcall : call ≠ x := fun heq => by cases hf heq
      exact if_neg fun h => hcall h.1
    | evicted keys remaining => exact ite_self _
    | registered | opened | granted | gaveUp | returned | notReturned | rolledBack | announced
    | answered =>
      rfl

/-- Without a slot there is nothing drawn; tickets that are not served are in nobody's way. -/
theorem Orderly.deletable (ho : Orderly past s) (hb : ¬ s.Bound x) :
    Deletable s x (drawnBy x past) where
  absent := fun key hslot => (ho.ledger.draws x key).absent hslot
  unserved := by
    intro key slot hslot t ht
    obtain ⟨hlt, hmine⟩ := (ho.ledger.draws x key).stands slot hslot t ht
    refine ⟨hlt, fun hserves => hb ?_⟩
    have hqueue : t ∈ slot.queue := by
      rw [Slot.queue_eq_cons hserves]
      exact List.mem_cons_self
    obtain ⟨z, hline⟩ := (ho.ledger.mem_queue_iff hslot).1 hqueue
    cases hmine z hline
    exact ⟨key, t, slot, (ho.lined _ _ _).1 hline, hslot, hserves⟩
  others := by
    intro z key ticket hz hwaits heq
    obtain ⟨slot, hslot, -⟩ := ho.exists_slot_of_waits hwaits
    obtain ⟨-, hmine⟩ := (ho.ledger.draws x key).stands slot hslot ticket heq
    exact hz (hmine z ((ho.lined _ _ _).2 hwaits))

/-- Of the tickets that the call drew, the one it waits with stands in a queue. -/
theorem Orderly.drawn_eq (ho : Orderly past s)
    (hn : ∀ key, ((arrivals key past).map Prod.fst).Nodup) :
    s.drawn (drawnBy x past) = s.present x := by
  funext key
  cases hslot : s.slots.get? key with
  | none =>
    have haway : (s.waits? x).map Prod.fst ≠ some key := by
      intro heq
      obtain ⟨⟨k, ticket⟩, hwaits, rfl⟩ := Option.map_eq_some_iff.1 heq
      obtain ⟨slot, hsome, -⟩ := ho.exists_slot_of_waits hwaits
      cases hslot.symm.trans hsome
    rw [Service.present, if_neg haway, Service.drawn, hslot]
    rfl
  | some slot =>
    have hnodup := (ho.ledger.sound key slot hslot).nodup_queue
    rw [Service.drawn_eq hslot, Slot.drawn, Service.present]
    by_cases hhere : (s.waits? x).map Prod.fst = some key
    · obtain ⟨⟨k, t⟩, hwaits, rfl⟩ := Option.map_eq_some_iff.1 hhere
      have hline := (ho.lined _ _ _).2 hwaits
      have hdrawn := ho.ledger.drawnBy_of_mem_line (hn k) hline
      have hmem : t ∈ slot.queue := (ho.ledger.mem_queue_iff hslot).2 ⟨x, hline⟩
      have hcount : (slot.queue.countP fun n => decide (some t = some n)) = slot.queue.count t := by
        refine List.countP_congr fun n _ => ?_
        simp only [Option.some.injEq, decide_eq_true_eq, beq_iff_eq]
        exact eq_comm
      rw [if_pos hhere]
      simp only [hdrawn]
      rw [hcount, List.count_eq_one_of_mem hnodup hmem]
    · rw [if_neg hhere]
      refine List.countP_eq_zero.2 fun n hmem heq => hhere ?_
      obtain ⟨z, hline⟩ := (ho.ledger.mem_queue_iff hslot).1 hmem
      obtain ⟨-, hmine⟩ := (ho.ledger.draws x key).stands slot hslot n (of_decide_eq_true heq)
      cases hmine z hline
      rw [(ho.lined _ _ _).1 hline]
      rfl

/-- The facts of an action are those of the call that makes it. -/
theorem Service.call_eq_iff {a : Action} {f : Fact} (hf : f ∈ (s.act a).facts) :
    f.call = x ↔ a.madeBy x = true := by
  cases a with
  | submit call request => rw [(effect_submit hf).call_eq, Action.madeBy, decide_eq_true_eq]
  | pass d => exact absurd hf List.not_mem_nil
  | move call =>
    cases ht : s.move call with
    | none =>
      rw [act, ht] at hf
      exact absurd hf List.not_mem_nil
    | some t =>
      rw [act_move ht] at hf
      rw [((moved ht).effect hf).call_eq, Action.madeBy, decide_eq_true_eq]

/-- Another call changes what was drawn from a slot only by dropping it. -/
theorem Effect.drawAfter_eq {slots : Dict Key Slot} {f : Fact} (h : Effect s y slots f) (hy : y ≠ x)
    {slot : Slot} (hslot : slots.get? key = some slot) (o : Option Nat) :
      drawAfter x key o f = o := by
  cases h with
  | queued => exact if_neg fun heq => hy heq.1
  | evicted remaining left =>
    refine if_neg fun hkey => ?_
    obtain ⟨idle, hfound, hidle⟩ := mem_keys_filter_idle.1 hkey
    rw [left, Dict.get?_filter, hfound, Option.filter_some, if_neg (by simpa using hidle)] at hslot
    cases hslot
  | registered | opened | granted | gaveUp | returned | notReturned | rolledBack | announced | shown
  | answered => rfl

theorem Service.drawnBy_act {a : Action} (ha : a.madeBy x = false) {slot : Slot}
    (hslot : (s.act a).service.slots.get? key = some slot) :
    drawnBy x (past ++ (s.act a).facts) key = drawnBy x past key := by
  have hkept (fs : List Fact) (hfs : ∀ f ∈ fs, f ∈ (s.act a).facts) (o : Option Nat) :
      fs.foldl (drawAfter x key) o = o := by
    induction fs with
    | nil => rfl
    | cons f fs ih =>
      have hf := hfs f List.mem_cons_self
      obtain ⟨call, heffect⟩ := effect_act hf
      have hcall : call ≠ x := by
        intro heq
        have hmade := (call_eq_iff hf).1 (heffect.call_eq.trans heq)
        cases ha.symm.trans hmade
      rw [List.foldl_cons, heffect.drawAfter_eq hcall hslot]
      exact ih fun g hg => hfs g (List.mem_cons_of_mem _ hg)
  rw [drawnBy_append]
  exact hkept _ (fun _ hf => hf) _

/-- What another call does next comes to the same without the call. -/
theorem Orderly.shadows_act (ho : Orderly past s) {a : Action} (ha : a.madeBy x = false)
    (hnew : ∀ z ∈ a.number?, Unused past s z) (hb : ¬ s.Bound x) :
    (s.act a).Shadows x (drawnBy x (past ++ (s.act a).facts)) (s.drawn (drawnBy x past))
      ((s.without x (drawnBy x past)).act a) := by
  have hdeletable := ho.deletable hb
  have hnext := ho.leads (ho.leads_act hnew)
  have hsame : (s.act a).service.without x (drawnBy x (past ++ (s.act a).facts)) =
      (s.act a).service.without x (drawnBy x past) := by
    refine Service.without_congr (fun key slot hslot => Service.drawnBy_act ha hslot)
      fun z key ticket hwaits => ?_
    obtain ⟨slot, hslot, -⟩ := hnext.exists_slot_of_waits hwaits
    exact ⟨slot, hslot⟩
  have hshadows : (s.act a).Shadows x (drawnBy x past) (s.drawn (drawnBy x past))
      ((s.without x (drawnBy x past)).act a) := by
    cases a with
    | pass d => exact .of_without rfl .nil
    | submit z request =>
      exact Service.shadows_submit (of_decide_eq_false ha) hdeletable ho.ledger.sound
        ho.ledger.keyed request
    | move z => exact Service.shadows_act_move (of_decide_eq_false ha) hdeletable ho.ledger.sound
  exact ⟨hshadows.service.trans hsame.symm, hshadows.facts⟩

/-- Nobody but the call can tell that it is missing. -/
theorem Orderly.unseen (ho : Orderly past s) (hn : ∀ key, ((arrivals key past).map Prod.fst).Nodup)
    (hb : ¬ s.Bound x) {s' : Service} (hs' : ∀ key slot, s'.slots.get? key = some slot → slot.Sound)
    (h : s'.roused = s.without x (drawnBy x past)) : Unseen x s s' := by
  have hslots : rousedSlots s'.slots = rousedSlots (s.without x (drawnBy x past)).slots :=
    (congrArg Service.slots h).trans (rousedSlots_without s x _).symm
  obtain ⟨hregistry, -, hgroup, hlisteners, hlistening, hcallers, hclock⟩ := Service.mk.inj h
  refine ⟨hregistry, hgroup, hlisteners, hlistening, hclock, ?keys, ?slots, ?callers, ?moves⟩
  case keys => exact (keys_of_roused hslots).trans (Dict.keys_map _ _)
  case callers =>
    rw [hcallers]
    exact (Dict.keys_map _ _).trans (Dict.keys_erase _ _)
  case slots =>
    intro key slot hslot
    obtain ⟨awake, hslot'⟩ := get?_of_roused hslots (by rw [Service.get?_slots_without, hslot]; rfl)
    refine ⟨_, _, awake, hslot', ?_⟩
    have hlength := Slot.length_queue (drawnBy x past key) slot
    rwa [← Service.drawn_eq hslot, ho.drawn_eq hn] at hlength
  case moves =>
    intro y hy
    have hshadows := Service.shadows_act_move hy (ho.deletable hb) ho.ledger.sound
    rw [ho.drawn_eq hn, ← h] at hshadows
    have hfacts := (Turn.mk.inj (Service.act_of_roused hs' (.move y))).2
    rw [← hfacts]
    exact hshadows.facts

end

section

variable {past : List Fact} {s : Service} {x : CallId} {c : Caller} {id : ResourceId}

/-- A caller that comes to a resource and is granted nothing finds a slot there, and waits. -/
theorem Orderly.enter_in_vain (ho : Orderly past s) (permits : 0 < c.type.capacity)
    (hnone : ∀ key, drawnBy x past key = none) (hmine : ∀ f ∈ (s.enter x c id).facts,
      f.permit? = none) :
    (s.enter x c id).InVain x past s := by
  have hwaits : ¬ (s.slotFor x c.type id).1.enqueue.2.Serves
      (s.slotFor x c.type id).1.enqueue.1 := by
    intro hserves
    simp only [Service.enter, if_pos hserves] at hmine
    -- the grant would be among the facts
    cases hmine _ (List.mem_append_right _ (List.mem_cons_of_mem _ List.mem_cons_self))
  cases hslot : s.slots.get? (c.type.name, id) with
  | none =>
    have hfor : (s.slotFor x c.type id).1 = Slot.fresh c.type id := by rw [Service.slotFor, hslot]
    rw [hfor] at hwaits
    exact absurd ⟨permits, rfl⟩ hwaits
  | some slot =>
    have hfor : s.slotFor x c.type id = (slot, []) := by rw [Service.slotFor, hslot]
    have hfound : s.slots.get? (c.keyOf id) = some slot := hslot
    rw [hfor] at hwaits
    simp only [Service.enter, hfor, if_neg hwaits, List.nil_append]
    refine ⟨?_, fun f hf => by rw [List.mem_singleton.1 hf]; rfl⟩
    have hbefore : drawnBy x past = fun _ => none := funext hnone
    have hdraw (k : Key) :
      drawnBy x (past ++ [⟨x, .queued (c.keyOf id) slot.enqueue.1 slot.queue.length true⟩]) k
        = if c.keyOf id = k then some slot.nextTicket else none := by
      rw [drawnBy_append, hnone k, List.foldl_cons, List.foldl_nil]
      simp only [drawAfter, true_and]
      rfl
    rw [hbefore]
    refine Service.without_draw (ho.ledger.sound _ _ hfound) hfound ?_ _ ?_ ?_
    · intro z ticket hwaiting
      exact ho.ledger.lt_nextTicket_of_mem_line hfound ((ho.lined _ _ _).2 hwaiting)
    · rw [hdraw, if_pos rfl]
    · intro k hk
      rw [hdraw, if_neg hk.symm]

/-- A caller for one resource that gives up is gone with its ticket. -/
theorem Orderly.giveUp_in_vain (ho : Orderly past s)
    (hn : ∀ key, ((arrivals key past).map Prod.fst).Nodup)
    {ticket timeout : Nat} {budget deadline : Option Nat} {slot : Slot}
    (working : s.callers.get? x = some c) (stage : c.stage = .waiting id ticket budget deadline)
    (found : s.slots.get? (c.keyOf id) = some slot) (goal : c.goal = .attempt timeout) :
    (s.giveUp x c id ticket budget slot).InVain x past s := by
  have hline : (x, ticket) ∈ lineAt (c.keyOf id) past :=
    (ho.lined _ _ _).2 (Service.waits?_eq_some.2 ⟨c, id, budget, deadline, working, stage, rfl⟩)
  have hdrawn := ho.ledger.drawnBy_of_mem_line (hn _) hline
  simp only [Service.giveUp, goal]
  constructor
  · have hkept : drawnBy x (past ++ [⟨x, .gaveUp (c.keyOf id) ticket c.party budget⟩,
        ⟨x, .answered (.ok ((Goal.attempt timeout).failure id []))⟩]) = drawnBy x past :=
      funext fun key => drawnBy_append _ _ _ key
    exact (congrArg _ hkept).trans (Service.without_leave found hdrawn)
  · intro f hf
    rcases List.mem_cons.1 hf with rfl | hf
    · trivial
    · rw [List.mem_singleton.1 hf]
      rfl

end

namespace Expired

variable {h : History} {x : CallId} {as bs : List Action}

/-- The call was granted nothing, and told nothing but that the resource was not to be had. -/
theorem own (hx : Expired h x) : ∀ f ∈ h.facts, f.call = x →
    f.permit? = none ∧ ∀ reply, f.deed = .answered reply → reply = .ok (.flag false) := by
  obtain ⟨typeName, id, party, timeout, hasked⟩ := hx.asked
  obtain ⟨before, after, ha⟩ := List.append_of_mem hasked
  obtain ⟨c₀, c, own, id', ticket, budget, deadline, hb, hstory, -, htaken, hfacts⟩ :=
    History.ended_tryLock ha hx.answered
  have hpermits : own.filterMap Fact.permit? = [] := by
    rw [hstory.permits_eq hb, Caller.permits, htaken]
    rfl
  intro f hf hcall
  have hmem : f ∈ factsOf x h.facts := mem_factsOf.2 ⟨hf, hcall⟩
  rw [hfacts] at hmem
  rcases List.mem_append.1 hmem with hown | hend
  · refine ⟨List.filterMap_eq_nil_iff.1 hpermits f hown, fun reply hdeed => ?_⟩
    obtain ⟨y, deed⟩ := f
    cases hcall
    cases hdeed
    exact absurd hown (hstory.not_answered reply)
  · rcases List.mem_cons.1 hend with rfl | hend
    · exact ⟨rfl, fun reply hdeed => by cases hdeed⟩
    · rw [List.mem_singleton.1 hend]
      refine ⟨rfl, fun reply hdeed => ?_⟩
      cases hdeed
      rfl

theorem ungranted (hx : Expired h x) {key : Key} {ticket : Nat} {g : Holding} {party : Party}
    {budget : Option Nat} : ⟨x, .granted key ticket g party budget⟩ ∉ h.facts := by
  intro hf
  cases (hx.own _ hf rfl).1

/-- The call is never served. -/
theorem not_bound (hx : Expired h x) (hsplit : h.actions = as ++ bs) :
    ¬ (h.start.run as).service.Bound x := by
  intro hb
  rcases History.bound_or_granted hsplit hb with ⟨key, ticket, slot, hwaits, -⟩ |
    ⟨key, ticket, g, party, budget, hf⟩
  · obtain ⟨c, _, _, _, working, -⟩ := Service.waits?_eq_some.1 hwaits
    cases (History.gone_of_answered hx.answered).idle.symm.trans working
  · exact hx.ungranted hf

/-- The call made one request. -/
theorem request_eq (hx : Expired h x) {request : Request}
    (hsplit : h.actions = as ++ .submit x request :: bs) :
    ∃ typeName id party timeout, request = .tryLock typeName id party timeout := by
  obtain ⟨typeName, id, party, timeout, hasked⟩ := hx.asked
  obtain ⟨hbefore, hafter⟩ := History.number_unique hsplit
  refine ⟨typeName, id, party, timeout, ?_⟩
  rw [hsplit] at hasked
  rcases List.mem_append.1 hasked with hmem | hmem
  · exact absurd hmem (hbefore _)
  · rcases List.mem_cons.1 hmem with heq | hmem
    · cases heq
      rfl
    · exact absurd hmem (hafter _)

/-- While the call is at work it is after one resource, and has nothing to give back. -/
theorem at_work (hx : Expired h x) (hsplit : h.actions = as ++ bs) {c : Caller}
    (hc : (h.start.run as).service.callers.get? x = some c) :
    ∃ c₀ timeout, c₀.Begun ∧ Story x c₀ (factsOf x (h.start.run as).facts) c ∧
      c.goal = .attempt timeout ∧
      c.taken = [] ∧ ∀ failed left error, c.stage ≠ .undoing failed left error := by
  -- the request was made before
  have hused : ¬ Unused (h.upTo hsplit).facts (h.upTo hsplit).service x := by
    intro hu
    cases hu.idle.symm.trans hc
  obtain ⟨b, request, rest, hmade⟩ := History.exists_submit hused
  have hwhole : h.actions = b ++ .submit x request :: (rest ++ bs) := by
    rw [hsplit, show as = b ++ .submit x request :: rest from hmade, List.append_assoc,
      List.cons_append]
  obtain ⟨typeName, id, party, timeout, rfl⟩ := hx.request_eq hwhole
  rcases History.life_of_seeks (h := h.upTo hsplit) hmade rfl with ⟨hidle, -⟩ |
    ⟨c₀, hb, -, -, ⟨spending, hgoal⟩, -, ⟨c', hw⟩ | ⟨hgone, -⟩⟩
  · cases hidle.symm.trans hc
  · cases hw.working.symm.trans hc
    refine ⟨c₀, timeout, hb, hw.story, hw.story.keeps.2.2.1.trans hgoal, ?_,
      fun failed left error stage => ?_⟩
    · have hpermits : c.permits = [] := by
        rw [← hw.story.permits_eq hb]
        refine List.filterMap_eq_nil_iff.2 fun f hf => ?_
        obtain ⟨hf, hcall⟩ := mem_factsOf.1 hf
        refine (hx.own f ?_ hcall).1
        rw [History.facts, hsplit, Service.facts_run_append]
        exact List.mem_append_left _ hf
      exact List.map_eq_nil_iff.1 hpermits
    · obtain ⟨_, _, _, hgroup⟩ := hw.story.allOrNone_of_undoing hb stage
      cases hgoal.symm.trans hgroup
  · cases hgone.idle.symm.trans hc

/-- Whatever the call does is in vain. -/
theorem own_act (hx : Expired h x) {a : Action} (hsplit : h.actions = as ++ a :: bs)
    (ha : a.madeBy x = true) :
    ((h.start.run as).service.act a).InVain x (h.start.run as).facts (h.start.run as).service := by
  have ho : Orderly (h.start.run as).facts (h.start.run as).service := (h.upTo hsplit).orderly
  have hmine : ∀ f ∈ ((h.start.run as).service.act a).facts, f.call = x →
      f.permit? = none ∧ ∀ reply, f.deed = .answered reply → reply = .ok (.flag false) :=
    fun f hf hcall => hx.own f (History.mem_facts_of_act hsplit hf) hcall
  have hwork {c : Caller} (hc : (h.start.run as).service.callers.get? x = some c) :=
    hx.at_work hsplit hc
  have hn (key : Key) : ((arrivals key (h.start.run as).facts).map Prod.fst).Nodup :=
    (h.upTo hsplit).nodup_arrivals key
  generalize (h.start.run as).facts = past at ho hn hwork ⊢
  generalize (h.start.run as).service = s at ho hmine hwork ⊢
  cases a with
  | pass d => cases ha
  | submit y request =>
    cases of_decide_eq_true ha
    obtain ⟨typeName, id, party, timeout, rfl⟩ := hx.request_eq hsplit
    have hengage : s.act (.submit x (.tryLock typeName id party timeout)) =
      s.engage x typeName [id] party (.attempt timeout) := rfl
    rw [hengage] at hmine ⊢
    cases hvalid : s.resolveFor typeName party with
    | error e =>
      rw [Service.engage, hvalid] at hmine
      cases (hmine _ List.mem_cons_self rfl).2 _ rfl
    | ok type =>
      simp only [Service.engage, hvalid]
      refine ⟨?_, fun f hf => absurd hf List.not_mem_nil⟩
      simp only [Service.without, List.append_nil, Dict.erase_insert_self]
  | move y =>
    cases of_decide_eq_true ha
    cases hmove : s.move x with
    | none =>
      have hnothing : s.act (.move x) = ⟨s, []⟩ := by
        rw [Service.act, hmove]
        rfl
      rw [hnothing]
      exact ⟨by rw [List.append_nil], fun f hf => absurd hf List.not_mem_nil⟩
    | some t =>
      rw [Service.act_move hmove] at hmine ⊢
      cases moved hmove with
      | @succeeds c working stage done =>
        obtain ⟨c₀, timeout, -, -, hgoal, -⟩ := hwork working
        have hreply := (hmine _ List.mem_cons_self rfl).2 _ rfl
        rw [hgoal] at hreply
        cases hreply
      | @enters c id rest working stage next =>
        obtain ⟨c₀, timeout, hb, hstory, -, htaken, -⟩ := hwork working
        refine ho.enter_in_vain (ho.permits x c working) (drawnBy_eq_none fun f hf hcall => ?_)
          fun f hf => ?_
        · -- a call that has come to no resource has drawn no ticket
          have hqueued := hstory.queued_eq hb
          rw [htaken, Caller.here, stage] at hqueued
          exact List.filterMap_eq_nil_iff.1 hqueued f (mem_factsOf.2 ⟨hf, hcall⟩)
        · exact (hmine f hf (Service.effect_enter hf).call_eq).1
      | takes => cases (hmine _ List.mem_cons_self rfl).1
      | dozes working stage found =>
        refine ⟨?_, fun f hf => absurd hf List.not_mem_nil⟩
        rw [Service.doze, List.append_nil]
        exact Service.without_of_roused (Turn.mk.inj (Service.doze_roused found _)).1
      | @givesUp c id ticket budget deadline slot working stage found waits late =>
        obtain ⟨c₀, timeout, -, -, hgoal, -⟩ := hwork working
        exact ho.giveUp_in_vain hn working stage found hgoal
      | undoes working stage | undone working stage =>
        obtain ⟨-, -, -, -, -, -, hstage⟩ := hwork working
        exact absurd stage (hstage _ _ _)

/-- In the history without the call too every slot is sound at each moment. -/
theorem sound_without (h : History) (x : CallId) (hsplit : h.actions = as ++ bs) :
    ∀ key slot, (h.start.run (withoutCall x as)).service.slots.get? key = some slot →
      slot.Sound := by
  have hsplit' : (h.without x).actions = withoutCall x as ++ withoutCall x bs := by
    have hactions : (h.without x).actions = withoutCall x h.actions := rfl
    rw [hactions, hsplit, withoutCall, List.filter_append]
    rfl
  exact ((h.without x).upTo hsplit').orderly.ledger.sound

/-- Without the call the history is at each moment in the state of this one without the call, but
for who is awake. -/
theorem service_without (hx : Expired h x) (hsplit : h.actions = as ++ bs) :
    (h.start.run (withoutCall x as)).service.roused =
      (h.start.run as).service.without x (drawnBy x (h.start.run as).facts) := by
  induction as using List.reverseRecOn generalizing bs with
  | nil =>
    obtain ⟨registry, groupTimeout, -, hnew⟩ := h.isNew.eq_empty
    have hnobody : h.start.roused = h.start.without x fun _ => none := by
      rw [hnew]
      rfl
    exact hnobody
  | append_singleton as a ih =>
    rw [List.append_assoc, List.singleton_append] at hsplit
    have hbefore := ih hsplit
    rw [Service.service_run_snoc, Service.facts_run_snoc]
    cases ha : a.madeBy x with
    | true =>
      rw [withoutCall_snoc_own ha, hbefore]
      exact (hx.own_act hsplit ha).service.symm
    | false =>
      rw [withoutCall_snoc_other ha, Service.service_run_snoc]
      have ho : Orderly (h.start.run as).facts (h.start.run as).service := (h.upTo hsplit).orderly
      have hshadows := ho.shadows_act ha (History.number_unused hsplit) (hx.not_bound hsplit)
      rw [← hbefore] at hshadows
      rw [← hshadows.service]
      exact (Turn.mk.inj (Service.act_of_roused (sound_without h x hsplit) a)).1.symm

/-- What another call does next is seen by all to be the same without the call. -/
theorem alike_act (hx : Expired h x) {a : Action} (hsplit : h.actions = as ++ a :: bs)
    (ha : a.madeBy x = false) :
    List.Forall₂ (Fact.Alike ((h.start.run as).service.present x))
      ((h.start.run as).service.act a).facts
        ((h.start.run (withoutCall x as)).service.act a).facts := by
  have ho : Orderly (h.start.run as).facts (h.start.run as).service := (h.upTo hsplit).orderly
  have hshadows := ho.shadows_act ha (History.number_unused hsplit) (hx.not_bound hsplit)
  rw [← hx.service_without hsplit, ho.drawn_eq fun key => (h.upTo hsplit).nodup_arrivals
    key] at hshadows
  rw [← (Turn.mk.inj (Service.act_of_roused (sound_without h x hsplit) a)).2]
  exact hshadows.facts

theorem alike_run (hx : Expired h x) (hsplit : h.actions = as ++ bs) :
    List.Forall₂ (fun f f' => ∃ n, (∀ key, n key ≤ 1) ∧ Fact.Alike n f f')
      ((h.start.run as).facts.filter (·.call ≠ x)) (h.start.run (withoutCall x as)).facts := by
  induction as using List.reverseRecOn generalizing bs with
  | nil => exact .nil
  | append_singleton as a ih =>
    rw [List.append_assoc, List.singleton_append] at hsplit
    have hbefore := ih hsplit
    rw [Service.facts_run_snoc, List.filter_append]
    cases ha : a.madeBy x with
    | true =>
      have hnone : ((h.start.run as).service.act a).facts.filter (·.call ≠ x) = [] :=
        List.filter_eq_nil_iff.2 fun f hf => by simpa using (Service.call_eq_iff hf).2 ha
      rw [withoutCall_snoc_own ha, hnone, List.append_nil]
      exact hbefore
    | false =>
      have hall : ((h.start.run as).service.act a).facts.filter (·.call ≠ x) =
          ((h.start.run as).service.act a).facts :=
        List.filter_eq_self.2 fun f hf => decide_eq_true fun heq => by
          cases ha.symm.trans ((Service.call_eq_iff hf).1 heq)
      rw [withoutCall_snoc_other ha, hall, Service.facts_run_snoc]
      have hnext := hx.alike_act hsplit ha
      exact List.rel_append hbefore (hnext.imp fun _ _ halike =>
        ⟨_, Service.present_le_one _ x, halike⟩)

end Expired

/-- A call for one resource that could not be had in time is invisible to all others. In the history
without the call, in which time passes as before, everything is at each moment as it was, but for
the place of the call in a queue; every other action leaves the same facts, but for the tickets and
for the callers counted in a queue while the call stands there. The call itself makes no slot and is
granted nothing. -/
theorem expired_call_invisible {h : History} {x : CallId} (hx : Expired h x) :
    (∀ as bs, h.actions = as ++ bs →
      let s := (h.start.run as).service
      let s' := (h.start.run (withoutCall x as)).service
      Unseen x s s' ∧
      ∀ a rest, bs = a :: rest →
        if a.madeBy x then ∀ f ∈ (s.act a).facts, f.deed.InVain
        else List.Forall₂ (Fact.Alike (s.present x)) (s.act a).facts (s'.act a).facts) ∧
    List.Forall₂ (fun f f' => ∃ n, (∀ key, n key ≤ 1) ∧ Fact.Alike n f f')
      (h.facts.filter (·.call ≠ x)) (h.without x).facts := by
  refine ⟨fun as bs hsplit => ⟨?_, ?_⟩, hx.alike_run (List.append_nil _).symm⟩
  · exact (h.upTo hsplit).orderly.unseen (h.upTo hsplit).nodup_arrivals (hx.not_bound hsplit)
      (Expired.sound_without h x hsplit) (hx.service_without hsplit)
  · rintro a rest rfl
    split
    · rename_i ha
      exact (hx.own_act hsplit ha).facts
    · rename_i ha
      exact hx.alike_act hsplit (by simpa using ha)

/-- A caller gives up behind a permit that is out, while another one waits behind it and the slot is
shown. -/
def impatient : History where
  start := .withType ⟨"doc", 1, .exclusivePerOwner⟩
  actions := [.submit 1 (.lock "doc" 2 (.owner 9)), .move 1, .move 1,
    .submit 2 (.tryLock "doc" 2 (.owner 6) 5), .move 2, .submit 3 (.lock "doc" 2 (.owner 8)),
    .move 3,
    .submit 4 (.slotState ("doc", 2)), .pass 5, .move 2, .submit 5 (.unlock "doc" 2 (.owner 9)),
    .move 3, .move 3]
  isNew := Service.new_doc
  numbered := by decide

theorem expired_call_invisible_impatient :
    Expired impatient 2 ∧
    (∃ s s', s = (impatient.start.run (impatient.actions.take 8)).service ∧
      s' = (impatient.start.run (withoutCall 2 (impatient.actions.take 8))).service ∧
      Unseen 2 s s' ∧ s.present 2 ("doc", 2) = 1 ∧ queueAt s.slots ("doc", 2) = [1, 2] ∧
      queueAt s'.slots ("doc", 2) = [1]) ∧
    List.Forall₂ (fun f f' => ∃ n, (∀ key, n key ≤ 1) ∧ Fact.Alike n f f')
      (impatient.facts.filter (·.call ≠ 2)) (impatient.without 2).facts := by
  have hexpired : Expired impatient 2 :=
    ⟨⟨"doc", 2, .owner 6, 5, List.mem_of_getElem? (i := 3) rfl⟩, List.mem_of_getElem? (i := 8) rfl⟩
  obtain ⟨hmoments, hfacts⟩ := expired_call_invisible hexpired
  refine ⟨hexpired, ⟨_, _, rfl, rfl, ?_, rfl, rfl, rfl⟩, hfacts⟩
  exact (hmoments (impatient.actions.take 8) (impatient.actions.drop 8) rfl).1

end FairLocks
