import FairLocks.Proofs.Group

/-!
# Tickets in the queues

Every ticket in a queue is that of a call which is parked there, in the order in which they arrived.
A call draws at most one ticket for a resource and stands in one line at a time; once it is answered
it stands in none. A call for several resources that is parked on one of them has a permit on each
before it.
-/
namespace FairLocks

set_option autoImplicit false

/-- The call that drew a ticket for the resource, with the ticket. -/
def Fact.arrival? (key : Key) (f : Fact) : Option (CallId × Nat) :=
  match f.deed with
  | .queued k ticket _ _ => if k = key then some (f.call, ticket) else none
  | _ => none

/-- Who drew a ticket for the resource, in the order of arrival. -/
def arrivals (key : Key) (facts : List Fact) : List (CallId × Nat) :=
  facts.filterMap (Fact.arrival? key)

/-- The calls that are parked on the resource. -/
def Service.parkedOn (s : Service) (key : Key) : List CallId :=
  s.callers.keys.filter fun call => (s.waits? call).map Prod.fst = some key

/-- Those who arrived at the resource and are parked there with the ticket that they drew. -/
def History.line (h : History) (key : Key) : List (CallId × Nat) :=
  (arrivals key h.facts).filter fun x => h.service.waits? x.1 = some (key, x.2)

/-- A part of a list without repetitions is what the list has of its members. -/
theorem eq_filter_of_sublist {α : Type} {l l' : List α} {p : α → Bool} (h : l.Sublist l')
    (hn : l'.Nodup) (hp : ∀ x ∈ l', x ∈ l ↔ p x = true) : l = l'.filter p := by
  induction h with
  | slnil => rfl
  | @cons l₁ l₂ a hsub ih =>
    obtain ⟨ha, hn⟩ := List.nodup_cons.1 hn
    have hno : ¬ p a = true := fun hpa => ha (hsub.subset ((hp a List.mem_cons_self).2 hpa))
    rw [List.filter_cons_of_neg hno]
    exact ih hn fun x hx => hp x (List.mem_cons_of_mem _ hx)
  | @cons_cons l₁ l₂ a _ ih =>
    obtain ⟨ha, hn⟩ := List.nodup_cons.1 hn
    have hyes : p a = true := (hp a List.mem_cons_self).1 List.mem_cons_self
    rw [List.filter_cons_of_pos hyes]
    refine congrArg _ (ih hn fun x hx => ?_)
    have hne : x ≠ a := fun heq => ha (heq ▸ hx)
    rw [← hp x (List.mem_cons_of_mem _ hx), List.mem_cons]
    exact ⟨.inr, fun h => h.resolve_left hne⟩

theorem arrivals_append (key : Key) (fs gs : List Fact) :
    arrivals key (fs ++ gs) = arrivals key fs ++ arrivals key gs :=
  List.filterMap_append

/-- The resource for which the fact tells that a ticket was drawn. -/
def Fact.queue? (f : Fact) : Option Key :=
  match f.deed with
  | .queued key _ _ _ => some key
  | _ => none

theorem arrivals_eq_nil {fs : List Fact} (h : ∀ f ∈ fs, f.queue? = none) (key : Key) :
    arrivals key fs = [] := by
  refine List.filterMap_eq_nil_iff.2 fun f hf => ?_
  have hnone := h f hf
  obtain ⟨call, deed⟩ := f
  cases deed with
  | queued => cases hnone
  | registered | opened | granted | gaveUp | returned | notReturned | rolledBack | evicted
  | announced | answered => rfl

theorem mem_arrivals {key : Key} {past : List Fact} {call : CallId} {ticket : Nat}
    (h : (call, ticket) ∈ arrivals key past) :
    ∃ ahead waits, ⟨call, .queued key ticket ahead waits⟩ ∈ past := by
  obtain ⟨⟨x, deed⟩, hf, harrival⟩ := List.mem_filterMap.1 h
  cases deed with
  | queued k n ahead waits =>
    simp only [Fact.arrival?] at harrival
    split at harrival
    · rename_i hk
      cases harrival
      subst hk
      exact ⟨ahead, waits, hf⟩
    · cases harrival
  | registered | opened | granted | gaveUp | returned | notReturned | rolledBack | evicted
  | announced | answered => cases harrival

/-- Whoever stands in line arrived, and nobody passed anybody since. -/
theorem lineAt_sublist_arrivals (key : Key) (past : List Fact) :
    (lineAt key past).Sublist (arrivals key past) := by
  induction past using List.reverseRecOn with
  | nil => exact List.Sublist.refl _
  | append_singleton past f ih =>
    rw [lineAt_append, List.foldl_cons, List.foldl_nil, arrivals_append]
    obtain ⟨call, deed⟩ := f
    have hstay : (lineAt key past).Sublist (arrivals key past ++ arrivals key [⟨call, deed⟩]) :=
      ih.trans (List.sublist_append_left _ _)
    cases deed with
    | queued k ticket ahead waits =>
      by_cases hk : k = key
      · simpa [lineAfter, arrivals, Fact.arrival?, hk] using ih
      · simpa [lineAfter, hk] using hstay
    | granted k ticket g party budget | gaveUp k ticket party budget =>
      by_cases hk : k = key
      · simp only [lineAfter, if_pos hk]
        exact List.filter_sublist.trans hstay
      · simpa only [lineAfter, if_neg hk] using hstay
    | registered | opened | returned | notReturned | rolledBack | evicted | announced | answered =>
      exact hstay

theorem Deed.KeepsLine.queue?_eq {f : Fact} (h : f.deed.KeepsLine) : f.queue? = none := by
  obtain ⟨call, deed⟩ := f
  cases deed <;> first | rfl | exact h.elim

namespace Caller

variable {call : CallId} {d : Dict Key Slot} {c c' : Caller} {fs : List Fact}

/-- A caller that advances draws a ticket for its next resource or draws none. -/
theorem Advance.queued_or_not (h : c.Advance call d fs c') :
    (∃ id rest ticket ahead waits, c.stage = .next ∧ c.rest = id :: rest ∧
      fs = [⟨call, .queued (c.keyOf id) ticket ahead waits⟩]) ∨ ∀ f ∈ fs, f.queue? = none := by
  cases h with
  | queued stage next => exact .inl ⟨_, _, _, _, _, stage, next, rfl⟩
  | opened | gaveUp | notReturned =>
    refine .inr fun f hf => ?_
    rw [List.mem_singleton.1 hf]
    rfl
  | granted _ tells | returned _ _ tells =>
    refine .inr fun f hf => ?_
    rcases List.mem_cons.1 hf with rfl | hf
    · rfl
    · exact (tells f hf).keepsLine.queue?_eq

theorem Ends.queue?_eq (h : c.Ends call fs) : ∀ f ∈ fs, f.queue? = none := by
  intro f hf
  cases h with
  | success | failed =>
    rw [List.mem_singleton.1 hf]
    rfl
  | gaveUp =>
    rcases List.mem_cons.1 hf with rfl | hf
    · rfl
    · rw [List.mem_singleton.1 hf]
      rfl
  | rolledBack _ tells =>
    rcases List.mem_cons.1 hf with rfl | hf
    · rfl
    · rcases List.mem_append.1 hf with hf | hf
      · exact (tells f hf).keepsLine.queue?_eq
      · rw [List.mem_singleton.1 hf]
        rfl

/-- The resources that the caller queued for, in order: what it took and where it stands. -/
theorem Advance.queued_eq (h : c.Advance call d fs c') :
    (c'.taken.map Prod.fst ++ c'.here).map c'.keyOf =
      (c.taken.map Prod.fst ++ c.here).map c.keyOf ++ fs.filterMap Fact.queue? := by
  rcases h.queued_or_not with ⟨id, rest, ticket, ahead, waits, stage, next, rfl⟩ | hnone
  · cases h with
    | queued => simp [here, keyOf, stage, Fact.queue?]
  · rw [List.filterMap_eq_nil_iff.2 hnone, List.append_nil]
    cases h with
    | opened => rfl
    | queued => exact absurd (hnone _ List.mem_cons_self) (by simp [Fact.queue?])
    | granted stage | gaveUp stage | returned stage | notReturned stage => simp [here, keyOf, stage]

end Caller

/-- A caller queued for what it took and for where it stands, in order. -/
theorem Story.queued_eq {call : CallId} {c₀ c : Caller} {own : List Fact} (h : Story call c₀ own c)
    (hb : c₀.Begun) :
    own.filterMap Fact.queue? = (c.taken.map Prod.fst ++ c.here).map c.keyOf := by
  induction h with
  | begun => simp [hb.taken, hb.stage, Caller.here]
  | advance _ step ih => rw [List.filterMap_append, ih, step.queued_eq]

section

variable {past past' : List Fact} {s s' : Service} {call : CallId} {t : Turn} {key : Key}

/-- Who is about to queue for its next resource has not queued there before. -/
theorem Told.not_arrived (ht : Told past s) {c : Caller} (working : s.callers.get? call = some c)
    {id : ResourceId} {rest : List ResourceId} (next : c.rest = id :: rest) :
    call ∉ (arrivals (c.keyOf id) past).map Prod.fst := by
  intro hmem
  obtain ⟨c₀, hbegun, hw⟩ := ht call c working
  obtain ⟨⟨x, ticket⟩, harrival, rfl⟩ := List.mem_map.1 hmem
  obtain ⟨ahead, waits, hqueued⟩ := mem_arrivals harrival
  have hkey : c.keyOf id ∈ (factsOf x past).filterMap Fact.queue? :=
    List.mem_filterMap.2 ⟨_, mem_factsOf.2 ⟨hqueued, rfl⟩, rfl⟩
  rw [hw.story.queued_eq hbegun] at hkey
  obtain ⟨id', hid', heq⟩ := List.mem_map.1 hkey
  cases (Prod.mk.inj heq).2
  have hnodup := hw.story.nodup_itinerary hbegun
  rw [Caller.itinerary, next, List.nodup_middle, List.nodup_cons] at hnodup
  exact hnodup.1 (List.mem_append_left _ hid')

/-- A call arrives at a resource at most once. -/
theorem Step.nodup_arrivals (h : Step past s call t) (ht : Told past s)
    (hn : ((arrivals key past).map Prod.fst).Nodup) :
    ((arrivals key (past ++ t.facts)).map Prod.fst).Nodup := by
  rw [arrivals_append]
  have hkept (hfs : ∀ f ∈ t.facts, f.queue? = none) :
      ((arrivals key past ++ arrivals key t.facts).map Prod.fst).Nodup := by
    rwa [arrivals_eq_nil hfs, List.append_nil]
  cases h with
  | visit _ visit => exact hkept fun f hf => (visit.facts f hf).2.keepsLine.queue?_eq
  | engage => exact hkept fun f hf => absurd hf List.not_mem_nil
  | finish _ ends => exact hkept ends.queue?_eq
  | @advance c c' fs d working step entries =>
    rcases step.queued_or_not with ⟨id, rest, ticket, ahead, waits, stage, next, rfl⟩ | hnone
    · have hnew := ht.not_arrived working next
      by_cases hk : c.keyOf id = key
      · subst hk
        simp only [arrivals, Fact.arrival?, List.filterMap_cons, if_true, List.filterMap_nil,
          List.map_append, List.map_cons, List.map_nil] at hn hnew ⊢
        refine List.nodup_append.2 ⟨hn, by simp, fun x hx y hy => ?_⟩
        rw [List.mem_singleton.1 hy]
        exact fun heq => hnew (heq ▸ hx)
      · have hother : arrivals key [⟨call, .queued (c.keyOf id) ticket ahead waits⟩] = [] := by
          simp [arrivals, Fact.arrival?, hk]
        rwa [hother, List.append_nil]
    · exact hkept hnone

theorem Leads.nodup_arrivals {who : CallId → Prop} (h : Leads who past s past' s')
    (ho : Orderly past s) (hn : ((arrivals key past).map Prod.fst).Nodup) :
    ((arrivals key past').map Prod.fst).Nodup := by
  induction h with
  | refl => exact hn
  | step before _ step ih => exact step.nodup_arrivals (ho.leads before).told ih
  | pass _ _ ih | doze _ _ ih => exact ih

/-- Whoever waits stands in the queue of a slot. -/
theorem Orderly.exists_slot_of_waits (ho : Orderly past s) {ticket : Nat}
    (hwaits : s.waits? call = some (key, ticket)) :
    ∃ slot, s.slots.get? key = some slot ∧ ticket ∈ slot.queue := by
  have hmem : ticket ∈ queueAt s.slots key :=
    ho.ledger.mem_queueAt_iff.2 ⟨call, (ho.lined _ _ _).2 hwaits⟩
  cases hslot : s.slots.get? key with
  | none => simp [queueAt, hslot] at hmem
  | some slot => exact ⟨slot, rfl, queueAt_eq hslot ▸ hmem⟩

/-- A slot that somebody waits for is not dropped. -/
theorem Orderly.get?_evictIdle (ho : Orderly past s) {ticket : Nat} (n : CallId)
    (hwaits : s.waits? call = some (key, ticket)) :
    ∃ slot, s.slots.get? key = some slot ∧ (s.evictIdle n).service.slots.get? key = some slot := by
  obtain ⟨slot, found, hticket⟩ := ho.exists_slot_of_waits hwaits
  have hbusy : ¬ slot.Idle := fun hidle => by
    rw [hidle.2.2] at hticket
    exact List.not_mem_nil hticket
  refine ⟨slot, found, ?_⟩
  simp [Service.evictIdle, Dict.get?_filter, found, hbusy]

end

namespace History

variable {h : History} {key : Key} {call : CallId} {ticket : Nat}

theorem nodup_arrivals (h : History) (key : Key) : ((arrivals key h.facts).map Prod.fst).Nodup := by
  obtain ⟨hnew, -⟩ := h.isNew.orderly
  have hstart : Leads (fun _ => True) [] h.start h.facts h.service :=
    @History.leads h [] h.actions rfl
  exact hstart.nodup_arrivals hnew List.nodup_nil

/-- The line that the facts tell of is that of the parked calls. -/
theorem line_eq (h : History) (key : Key) : h.line key = lineAt key h.facts := by
  have hnodup := (h.nodup_arrivals key).of_map
  refine (eq_filter_of_sublist (lineAt_sublist_arrivals key h.facts) hnodup fun x _ => ?_).symm
  rw [decide_eq_true_eq]
  exact h.orderly.lined key x.1 x.2

theorem mem_line : (call, ticket) ∈ h.line key ↔ h.service.waits? call = some (key, ticket) := by
  rw [line_eq]
  exact h.orderly.lined key call ticket

/-- Each call in line is there once. -/
theorem nodup_line (h : History) (key : Key) : ((h.line key).map Prod.fst).Nodup :=
  (h.nodup_arrivals key).sublist (List.filter_sublist.map _)

theorem mem_parkedOn : call ∈ h.service.parkedOn key ↔ call ∈ (h.line key).map Prod.fst := by
  rw [Service.parkedOn, List.mem_filter, decide_eq_true_eq, List.mem_map]
  constructor
  · rintro ⟨-, hkey⟩
    obtain ⟨⟨k, ticket⟩, hwaits, rfl⟩ := Option.map_eq_some_iff.1 hkey
    exact ⟨(call, ticket), mem_line.2 hwaits, rfl⟩
  · rintro ⟨⟨x, ticket⟩, hline, rfl⟩
    have hwaits := mem_line.1 hline
    obtain ⟨c, -, -, -, working, -⟩ := Service.waits?_eq_some.1 hwaits
    exact ⟨(Dict.mem_keys_iff _ _).2 ⟨c, working⟩, by rw [hwaits]; rfl⟩

theorem line_perm_parkedOn (h : History) (key : Key) :
    ((h.line key).map Prod.fst).Perm (h.service.parkedOn key) :=
  (List.perm_ext_iff_of_nodup (h.nodup_line key) (h.service.callers.nodup.filter _)).2
    fun _ => mem_parkedOn.symm

/-- A call that is parked on a resource has a permit on each that it asked for before, and on no
other. -/
theorem granted_of_waits {before after : List Action} {request : Request} {typeName : String}
    {ids : List ResourceId} {party : Party}
    (ha : h.actions = before ++ .submit call request :: after)
    (hseeks : request.seeks? = some (typeName, ids, party))
    (hwaits : h.service.waits? call = some (key, ticket)) :
    ∃ i id, (distinct ids)[i]? = some id ∧ key = (typeName, id) ∧
      grantedTo call h.facts = ((distinct ids).take i).map fun id => (typeName, id) := by
  obtain ⟨c, id, budget, deadline, working, stage, rfl⟩ := Service.waits?_eq_some.1 hwaits
  rcases life_of_seeks ha hseeks with ⟨hidle, -⟩ | ⟨c₀, hb, rfl, -, -, hway, ⟨c', hw⟩ | ⟨hgone, -⟩⟩
  · cases hidle.symm.trans working
  · cases hw.working.symm.trans working
    obtain ⟨hctype, -, -, hcway⟩ := hw.story.keeps
    have hids : distinct ids = c.taken.map Prod.fst ++ id :: c.rest := by
      rw [← hway, ← hcway, Caller.itinerary, Caller.here, stage, List.append_assoc]
      rfl
    have hlength : (c.taken.map Prod.fst).length = c.taken.length := List.length_map _
    refine ⟨c.taken.length, id, ?_, by rw [Caller.keyOf, hctype], ?_⟩
    · rw [hids, List.getElem?_append_right (Nat.le_of_eq hlength), hlength, Nat.sub_self]
      rfl
    · rw [grantedTo, hw.story.permits_eq hb, hids, List.take_left' hlength, Caller.permits,
        List.map_map, List.map_map, ← hctype]
      rfl
  · cases hgone.idle.symm.trans working

end History

/-- The queue of a slot is made of the tickets of the calls that are parked there, in the order of
their arrival. A parked call stands in one line only, an answered one in none; a slot that somebody
waits for is not dropped; and a parked call has a permit on each resource that it asked for before,
and on no other. -/
theorem no_ghost_tickets (h : History) :
    (∀ key slot, h.service.slots.get? key = some slot →
      slot.queue = (h.line key).map Prod.snd ∧
      ((h.line key).map Prod.fst).Perm (h.service.parkedOn key) ∧
      slot.state.waiting = (h.service.parkedOn key).length) ∧
    (∀ call key ticket, h.service.waits? call = some (key, ticket) →
      (call, ticket) ∈ h.line key ∧ ∃ slot, h.service.slots.get? key = some slot) ∧
    (∀ call key key' ticket ticket', (call, ticket) ∈ h.line key → (call, ticket') ∈ h.line key' →
      key = key' ∧ ticket = ticket') ∧
    (∀ call reply, ⟨call, .answered reply⟩ ∈ h.facts → ∀ key, call ∉ (h.line key).map Prod.fst) ∧
    (∀ before n after, h.actions = before ++ .submit n .evictIdle :: after →
      let s := (h.start.run before).service
      ∀ call key ticket, s.waits? call = some (key, ticket) →
        ∃ slot, s.slots.get? key = some slot ∧
          (s.act (.submit n .evictIdle)).service.slots.get? key = some slot) ∧
    ∀ before call request after, h.actions = before ++ .submit call request :: after →
      ∀ typeName ids party, request.seeks? = some (typeName, ids, party) →
      ∀ key ticket, h.service.waits? call = some (key, ticket) →
        ∃ i id, (distinct ids)[i]? = some id ∧ key = (typeName, id) ∧
          grantedTo call h.facts = ((distinct ids).take i).map fun id => (typeName, id) := by
  refine ⟨fun key slot found => ?_, fun call key ticket hwaits => ?_, ?_, ?_, ?_, ?_⟩
  · have hqueue : slot.queue = (h.line key).map Prod.snd := by
      rw [h.line_eq, ← h.orderly.ledger.queueAt_eq_line, queueAt_eq found]
    have hperm := h.line_perm_parkedOn key
    refine ⟨hqueue, hperm, ?_⟩
    rw [← hperm.length_eq, List.length_map, Slot.state, hqueue, List.length_map]
  · obtain ⟨slot, found, -⟩ := h.orderly.exists_slot_of_waits hwaits
    exact ⟨History.mem_line.2 hwaits, slot, found⟩
  · intro call key key' ticket ticket' hline hline'
    cases (History.mem_line.1 hline).symm.trans (History.mem_line.1 hline')
    exact ⟨rfl, rfl⟩
  · intro call reply hf key hmem
    obtain ⟨⟨x, ticket⟩, hline, rfl⟩ := List.mem_map.1 hmem
    obtain ⟨c, -, -, -, working, -⟩ := Service.waits?_eq_some.1 (History.mem_line.1 hline)
    rw [(History.gone_of_answered hf).idle] at working
    cases working
  · intro before n after ha s call key ticket hwaits
    exact (h.upTo ha).orderly.get?_evictIdle n hwaits
  · intro before call request after ha typeName ids party hseeks key ticket hwaits
    exact History.granted_of_waits ha hseeks hwaits

/-- A call for two resources and one for a single one wait behind each other, a third one has given
up, and idle slots are dropped. -/
def queuedUp : History where
  start := .withType ⟨"doc", 1, .exclusivePerOwner⟩
  actions := [.submit 1 (.lock "doc" 2 (.owner 9)), .move 1,
    .submit 2 (.tryLock "doc" 2 (.owner 6) 0), .move 2,
    .submit 3 (.tryLockMany "doc" [1, 1, 2] (.owner 7) 5), .move 3, .move 3,
    .submit 4 (.lock "doc" 2 (.owner 8)), .move 4, .move 2, .submit 5 .evictIdle]
  isNew := Service.new_doc
  numbered := by decide

theorem no_ghost_tickets_queuedUp :
    (∃ slot, queuedUp.service.slots.get? ("doc", 2) = some slot ∧ slot.queue = [2, 3] ∧
      slot.queue = (queuedUp.line ("doc", 2)).map Prod.snd ∧
      slot.state.waiting = (queuedUp.service.parkedOn ("doc", 2)).length) ∧
    (4, 3) ∈ queuedUp.line ("doc", 2) ∧
    (∀ key ticket, (4, ticket) ∈ queuedUp.line key → ("doc", 2) = key ∧ 3 = ticket) ∧
    2 ∉ (queuedUp.line ("doc", 2)).map Prod.fst ∧
    (∃ slot, (queuedUp.start.run (queuedUp.actions.take 10)).service.slots.get? ("doc", 2) =
      some slot ∧
      queuedUp.service.slots.get? ("doc", 2) = some slot) ∧
    ∃ i id, [1, 2][i]? = some id ∧ (("doc", 2) : Key) = ("doc", id) ∧
      grantedTo 3 queuedUp.facts = ([1, 2].take i).map fun id => ("doc", id) := by
  obtain ⟨hqueue, hparked, hone, hgone, hkept, hgranted⟩ := no_ghost_tickets queuedUp
  obtain ⟨htickets, -, hwaiting⟩ := hqueue ("doc", 2) _ rfl
  have hline := (hparked 4 ("doc", 2) 3 rfl).1
  refine ⟨⟨_, rfl, rfl, htickets, hwaiting⟩, hline, fun key ticket => hone 4 _ key 3 ticket hline,
    hgone 2 (.ok (.flag false)) (List.mem_of_getElem? (i := 10) rfl) ("doc", 2), ?_, ?_⟩
  · exact hkept (queuedUp.actions.take 10) 5 [] rfl 3 ("doc", 2) 2 rfl
  · exact hgranted (queuedUp.actions.take 4) 3 _ (queuedUp.actions.drop 5) rfl "doc" [1, 1, 2]
      (.owner 7) rfl
      ("doc", 2) 2 rfl

end FairLocks
