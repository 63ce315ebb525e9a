import FairLocks.Proofs.Conservation
import FairLocks.Proofs.Provenance
import FairLocks.Proofs.Tickets

/-!
# What an inspection shows

An inspection puts together what a slot keeps apart: its free permits, the permits that are out, and
the owners of each. The permits that are out are those that were granted on the resource and have
not been returned, in the order in which they were granted, and each belongs to somebody. So the
parts of a state agree with each other and with what happened, at every moment of a history.
-/
namespace FairLocks

set_option autoImplicit false

/-- The permit that the fact tells was granted on the resource. -/
def Fact.grantOn? (key : Key) (f : Fact) : Option Holding :=
  match f.deed with
  | .granted k _ g _ _ => if k = key then some g else none
  | _ => none

/-- The permit that the fact tells was returned on the resource. -/
def Fact.returnOn? (key : Key) (f : Fact) : Option Holding :=
  match f.deed with
  | .returned k g _ => if k = key then some g else none
  | _ => none

/-- The permits that were granted on the resource, in order. -/
def grantsOn (key : Key) (facts : List Fact) : List Holding := facts.filterMap (Fact.grantOn? key)

/-- The permits that were returned on the resource, in order. -/
def returnsOn (key : Key) (facts : List Fact) : List Holding := facts.filterMap (Fact.returnOn? key)

section

variable {key : Key} {past : List Fact} {g : Holding}

theorem mem_grantsOn : g ∈ grantsOn key past ↔
    ∃ call ticket party budget, ⟨call, .granted key ticket g party budget⟩ ∈ past := by
  constructor
  · intro hg
    obtain ⟨⟨call, deed⟩, hf, hgrant⟩ := List.mem_filterMap.1 hg
    cases deed with
    | granted k ticket g' party budget =>
      simp only [Fact.grantOn?] at hgrant
      split at hgrant
      · rename_i hk
        cases hgrant
        subst hk
        exact ⟨call, ticket, party, budget, hf⟩
      · cases hgrant
    | registered | opened | queued | gaveUp | returned | notReturned | rolledBack | evicted
    | announced | answered => cases hgrant
  · rintro ⟨call, ticket, party, budget, hf⟩
    exact List.mem_filterMap.2 ⟨_, hf, if_pos rfl⟩

theorem mem_returnsOn : g ∈ returnsOn key past ↔ ∃ call party,
    ⟨call, .returned key g party⟩ ∈ past := by
  constructor
  · intro hg
    obtain ⟨⟨call, deed⟩, hf, hreturn⟩ := List.mem_filterMap.1 hg
    cases deed with
    | returned k g' party =>
      simp only [Fact.returnOn?] at hreturn
      split at hreturn
      · rename_i hk
        cases hreturn
        subst hk
        exact ⟨call, party, hf⟩
      · cases hreturn
    | registered | opened | queued | granted | gaveUp | notReturned | rolledBack | evicted
    | announced | answered => cases hreturn
  · rintro ⟨call, party, hf⟩
    exact List.mem_filterMap.2 ⟨_, hf, if_pos rfl⟩

theorem grantsOn_append (key : Key) (fs gs : List Fact) :
    grantsOn key (fs ++ gs) = grantsOn key fs ++ grantsOn key gs :=
  List.filterMap_append

theorem returnsOn_append (key : Key) (fs gs : List Fact) :
    returnsOn key (fs ++ gs) = returnsOn key fs ++ returnsOn key gs :=
  List.filterMap_append

theorem Fact.permit?_of_visiting {f : Fact} (h : f.deed.Visiting) : f.permit? = none := by
  obtain ⟨call, deed⟩ := f
  cases deed <;> first | rfl | exact h.elim

theorem grantsOn_eq_nil {fs : List Fact} (h : fs.filterMap Fact.permit? = []) (key : Key) :
    grantsOn key fs = [] := by
  rw [List.eq_nil_iff_forall_not_mem]
  intro g hg
  obtain ⟨call, ticket, party, budget, hf⟩ := mem_grantsOn.1 hg
  have hnone := List.filterMap_eq_nil_iff.1 h _ hf
  cases hnone

theorem returnsOn_eq_nil {f : Fact} (h : f.returns key = false) : returnsOn key [f] = [] := by
  rw [List.eq_nil_iff_forall_not_mem]
  intro g hg
  obtain ⟨call, party, hf⟩ := mem_returnsOn.1 hg
  rw [← List.mem_singleton.1 hf] at h
  exact of_decide_eq_false h rfl

end

namespace Ledger

variable {past : List Fact} {d : Dict Key Slot} {key : Key} {g : Holding}

/-- The permits that are out stand in the order in which they were granted. -/
theorem holdingsAt_sublist_grantsOn (h : Ledger past d) (key : Key) :
    (holdingsAt d key).Sublist (grantsOn key past) := by
  induction h with
  | nil => exact List.Sublist.refl _
  | @snoc past d d' f _ he ih =>
    rw [grantsOn_append]
    rcases he.holdings key with ⟨ticket, g, party, budget, hf, -, hd'⟩ |
      ⟨g, party, l, r, hf, hd, hd'⟩ |
      ⟨hgrants, -, hd'⟩
    · have hnew : grantsOn key [f] = [g] := by simp [grantsOn, Fact.grantOn?, hf]
      rw [hd', hnew]
      exact ih.append (List.Sublist.refl _)
    · rw [hd']
      rw [hd] at ih
      exact (((List.sublist_cons_self g r).append_left l).trans ih).trans
        (List.sublist_append_left _ _)
    · rw [hd']
      exact ih.trans (List.sublist_append_left _ _)
  | dozed _ hdoze ih => rwa [hdoze.holdingsAt_eq]

/-- What was returned had been granted. -/
theorem granted_of_returned (h : Ledger past d) (hg : g ∈ returnsOn key past) :
    g ∈ grantsOn key past := by
  induction h with
  | nil => exact absurd hg List.not_mem_nil
  | @snoc past d d' f hpast he ih =>
    rw [grantsOn_append]
    rw [returnsOn_append] at hg
    refine List.mem_append_left _ ?_
    rcases List.mem_append.1 hg with hg | hg
    · exact ih hg
    · rcases he.holdings key with ⟨ticket, g', party, budget, hf, -, -⟩ |
        ⟨g', party, l, r, hf, hd, -⟩ |
        ⟨-, hreturns, -⟩
      · simp [returnsOn, Fact.returnOn?, hf] at hg
      · have hnew : returnsOn key [f] = [g'] := by simp [returnsOn, Fact.returnOn?, hf]
        rw [hnew, List.mem_singleton] at hg
        subst hg
        refine (hpast.holdingsAt_sublist_grantsOn key).subset ?_
        rw [hd]
        exact List.mem_append_right _ List.mem_cons_self
      · rw [returnsOn_eq_nil hreturns] at hg
        exact absurd hg List.not_mem_nil
  | dozed _ _ ih => exact ih hg

/-- What is out has not been returned. -/
theorem not_returned_of_out (h : Ledger past d) (hn : (grantsOn key past).Nodup)
    (hg : g ∈ holdingsAt d key) : g ∉ returnsOn key past := by
  induction h generalizing g with
  | nil => exact List.not_mem_nil
  | @snoc past d d' f hpast he ih =>
    rw [grantsOn_append, List.nodup_append] at hn
    obtain ⟨hn, -, hdisjoint⟩ := hn
    rw [returnsOn_append, List.mem_append]
    rcases he.holdings key with ⟨ticket, g', party, budget, hf, -, hd'⟩ |
      ⟨g', party, l, r, hf, hd, hd'⟩ |
      ⟨-, hreturns, hd'⟩
    · have hnone : returnsOn key [f] = [] := by simp [returnsOn, Fact.returnOn?, hf]
      have hnew : grantsOn key [f] = [g'] := by simp [grantsOn, Fact.grantOn?, hf]
      rw [hnone]
      rintro (hreturned | hreturned)
      · rw [hd'] at hg
        rcases List.mem_append.1 hg with hg | hg
        · exact ih hn hg hreturned
        · refine hdisjoint g (hpast.granted_of_returned hreturned) g ?_ rfl
          rw [hnew]
          exact hg
      · exact List.not_mem_nil hreturned
    · have hnew : returnsOn key [f] = [g'] := by simp [returnsOn, Fact.returnOn?, hf]
      have hnodup := (hpast.holdingsAt_sublist_grantsOn key).nodup hn
      rw [hd, List.nodup_middle, List.nodup_cons] at hnodup
      rw [hd'] at hg
      rw [hnew, List.mem_singleton]
      rintro (hreturned | rfl)
      · refine ih hn ?_ hreturned
        rw [hd]
        exact ((List.sublist_cons_self g' r).append_left l).subset hg
      · exact hnodup.1 hg
    · rw [returnsOn_eq_nil hreturns]
      rw [hd'] at hg
      rintro (hreturned | hreturned)
      · exact ih hn hg hreturned
      · exact List.not_mem_nil hreturned
  | dozed _ hdoze ih =>
    rw [hdoze.holdingsAt_eq] at hg
    exact ih hn hg

/-- The permits that are out are those that were granted and have not been returned, in order. -/
theorem holdingsAt_eq_grantsOn (h : Ledger past d) (hn : (grantsOn key past).Nodup) :
    holdingsAt d key = (grantsOn key past).filter (· ∉ returnsOn key past) := by
  refine eq_filter_of_sublist (h.holdingsAt_sublist_grantsOn key) hn fun g hg => ?_
  rw [decide_eq_true_eq]
  refine ⟨h.not_returned_of_out hn, fun hkept => ?_⟩
  obtain ⟨call, ticket, party, budget, hf⟩ := mem_grantsOn.1 hg
  rcases h.out_or_returned hf with hout | ⟨⟨x, deed⟩, hf', party', rfl⟩
  · exact hout
  · exact absurd (mem_returnsOn.2 ⟨x, party', hf'⟩) hkept

end Ledger

section

variable {past past' : List Fact} {s s' : Service} {call : CallId} {t : Turn} {key : Key}

/-- Who waits for a resource has not been granted a permit on it. -/
theorem Orderly.not_granted (ho : Orderly past s) {c : Caller}
    (working : s.callers.get? call = some c)
    {id : ResourceId} {ticket : Nat} {budget deadline : Option Nat}
    (stage : c.stage = .waiting id ticket budget deadline) {g : Holding}
    (hg : g ∈ grantsOn (c.keyOf id) past) : g.grantee ≠ call := by
  rintro rfl
  obtain ⟨x, ticket', party, budget', hf⟩ := mem_grantsOn.1 hg
  cases ho.ledger.grantee_of_granted hf
  obtain ⟨c₀, hbegun, hw⟩ := ho.told _ c working
  have hkey := mem_grantedTo hf rfl (decide_eq_true rfl)
  rw [grantedTo, hw.story.permits_eq hbegun, Caller.permits, List.map_map] at hkey
  obtain ⟨m, hm, heq⟩ := List.mem_map.1 hkey
  cases (Prod.mk.inj heq).2
  have hnodup := hw.story.nodup_itinerary hbegun
  rw [Caller.itinerary, Caller.here, stage, List.append_assoc, List.nodup_append] at hnodup
  exact hnodup.2.2 m.1 (List.mem_map_of_mem hm) m.1 List.mem_cons_self rfl

/-- On each resource a call is granted at most one permit, so no permit is granted twice. -/
theorem Step.nodup_grantsOn (h : Step past s call t) (ho : Orderly past s)
    (hn : (grantsOn key past).Nodup) : (grantsOn key (past ++ t.facts)).Nodup := by
  rw [grantsOn_append]
  have hkept (hfs : t.facts.filterMap Fact.permit? = []) :
      (grantsOn key past ++ grantsOn key t.facts).Nodup := by
    rwa [grantsOn_eq_nil hfs key, List.append_nil]
  cases h with
  | visit _ visit =>
    refine hkept (List.filterMap_eq_nil_iff.2 fun f hf => ?_)
    exact Fact.permit?_of_visiting (visit.facts f hf).2
  | engage => exact hkept rfl
  | finish _ ends => exact hkept ends.permits_eq
  | @advance c c' fs d working step entries =>
    cases step with
    | opened | queued | gaveUp | notReturned => exact hkept rfl
    | returned _ _ tells =>
      refine hkept ?_
      rw [List.filterMap_cons_none (f := Fact.permit?) rfl, filterMap_permit?_tells tells]
    | @granted id ticket budget deadline g told stage tells =>
      have htold : grantsOn key told = [] := grantsOn_eq_nil (filterMap_permit?_tells tells) key
      by_cases hk : c.keyOf id = key
      · subst hk
        have hnew :
          grantsOn (c.keyOf id) (⟨call, .granted (c.keyOf id) ticket g c.party budget⟩ :: told) =
            [g] := by
          rw [← List.singleton_append, grantsOn_append, htold, List.append_nil]
          simp [grantsOn, Fact.grantOn?]
        have hgrantee : g.grantee = call := by
          cases entries with
          | cons first => exact first.of_granted.1
        rw [hnew, List.nodup_append]
        refine ⟨hn, List.nodup_singleton g, fun k hk k' hk' => ?_⟩
        rw [List.mem_singleton.1 hk']
        rintro rfl
        exact ho.not_granted working stage hk hgrantee
      · have hnew : grantsOn key (⟨call, .granted (c.keyOf id) ticket g c.party budget⟩ :: told) =
            [] := by
          rw [← List.singleton_append, grantsOn_append, htold, List.append_nil]
          simp [grantsOn, Fact.grantOn?, hk]
        rwa [hnew, List.append_nil]

theorem Leads.nodup_grantsOn {who : CallId → Prop} (h : Leads who past s past' s')
    (ho : Orderly past s)
    (hn : (grantsOn key past).Nodup) : (grantsOn key past').Nodup := by
  induction h with
  | refl => exact hn
  | step before _ step ih => exact step.nodup_grantsOn (ho.leads before) ih
  | pass _ _ ih | doze _ _ ih => exact ih

end

namespace History

variable {h : History} {key : Key} {slot : Slot}

theorem nodup_grantsOn (h : History) (key : Key) : (grantsOn key h.facts).Nodup := by
  obtain ⟨hnew, -⟩ := h.isNew.orderly
  have hstart : Leads (fun _ => True) [] h.start h.facts h.service :=
    @History.leads h [] h.actions rfl
  exact hstart.nodup_grantsOn hnew List.nodup_nil

/-- The permits that are out are those granted and not returned, in the order of the grants. -/
theorem holdings_eq (hslot : h.service.slots.get? key = some slot) :
    slot.holdings = (grantsOn key h.facts).filter (· ∉ returnsOn key h.facts) := by
  rw [← holdingsAt_eq hslot]
  exact h.orderly.ledger.holdingsAt_eq_grantsOn (h.nodup_grantsOn key)

end History

/-- A state of the resource that agrees with itself and with the facts. -/
structure SlotState.Coherent (st : SlotState) (key : Key) (facts : List Fact) : Prop where
  named : st.typeName = key.1 ∧ st.resourceId = key.2
  holder : ∀ l ∈ st.holders, l ≠ [] ∧ l.Pairwise (· < ·)
  granted : st.holders =
    ((grantsOn key facts).filter (· ∉ returnsOn key facts)).map fun g => g.owners.toList
  ascending : st.owners.Pairwise (· < ·)
  union : ∀ o, o ∈ st.owners ↔ ∃ l ∈ st.holders, o ∈ l
  held : st.held? = some st.holders.length
  free : st.phase = .free ↔ st.owners = []
  unheld : st.phase = .free ↔ st.holders = []
  full : st.phase = .full ↔ st.available = 0
  partiallyHeld : st.phase = .partiallyHeld ↔ st.owners ≠ [] ∧ st.available ≠ 0

section

variable {slot : Slot} {key : Key}

theorem Slot.mem_owners {o : OwnerId} : o ∈ slot.owners ↔ ∃ g ∈ slot.holdings, o ∈ g.owners := by
  simp [Slot.owners]

theorem Slot.mem_state_owners {o : OwnerId} : o ∈ slot.state.owners ↔ ∃ g ∈ slot.holdings,
    o ∈ g.owners := Slot.mem_owners

/-- Nobody owns anything where no permit is out, and only there if each belongs to somebody. -/
theorem Slot.state_owners_eq_nil (hnobody : ∀ g ∈ slot.holdings, ∃ o, o ∈ g.owners) :
    slot.state.owners = [] ↔ slot.holdings = [] := by
  rw [List.eq_nil_iff_forall_not_mem, List.eq_nil_iff_forall_not_mem]
  constructor
  · intro hnone g hg
    obtain ⟨o, ho⟩ := hnobody g hg
    exact hnone o (Slot.mem_state_owners.2 ⟨g, hg, ho⟩)
  · intro hnone o ho
    obtain ⟨g, hg, -⟩ := Slot.mem_state_owners.1 ho
    exact hnone g hg

theorem Slot.Sound.held?_eq (hs : slot.Sound) : slot.state.held? = some slot.holdings.length := by
  have hbalanced := hs.balanced
  have hle : slot.available ≤ slot.capacity := by omega
  simp only [SlotState.held?, Slot.state, hle, if_true, Option.some.injEq]
  omega

/-- A permit is out exactly where not all are free. -/
theorem Slot.Sound.holdings_eq_nil_iff (hs : slot.Sound) :
    slot.holdings = [] ↔ slot.available = slot.capacity := by
  have hbalanced := hs.balanced
  rw [← List.length_eq_zero_iff]
  omega

theorem SlotState.phase_eq_free_iff {st : SlotState} :
    st.phase = .free ↔ st.available = st.capacity := by
  unfold phase
  by_cases hfree : st.available = st.capacity
  · rw [if_pos hfree]
    simp [hfree]
  · rw [if_neg hfree]
    split <;> simp [hfree]

theorem SlotState.phase_eq_full_iff {st : SlotState} :
    st.phase = .full ↔ st.available ≠ st.capacity ∧ st.available = 0 := by
  unfold phase
  by_cases hfree : st.available = st.capacity
  · rw [if_pos hfree]
    simp [hfree]
  · rw [if_neg hfree]
    split
    · rename_i hfull
      exact ⟨fun _ => ⟨hfree, hfull⟩, fun _ => rfl⟩
    · rename_i hsome
      simp [hsome]

theorem SlotState.phase_eq_partiallyHeld_iff {st : SlotState} :
    st.phase = .partiallyHeld ↔ st.available ≠ st.capacity ∧ st.available ≠ 0 := by
  unfold phase
  by_cases hfree : st.available = st.capacity
  · rw [if_pos hfree]
    simp [hfree]
  · rw [if_neg hfree]
    split <;> simp [*]

end

namespace History

variable {h : History} {key : Key} {slot : Slot}

theorem coherent_state (hslot : h.service.slots.get? key = some slot) :
    slot.state.Coherent key h.facts := by
  have hs := h.orderly.ledger.sound key slot hslot
  have hkey := h.orderly.ledger.keyed key slot hslot
  have howned := fun g (hg : g ∈ slot.holdings) => exists_owner hslot hg
  have hnobody := Slot.state_owners_eq_nil howned
  have hholders : slot.state.holders = [] ↔ slot.holdings = [] := List.map_eq_nil_iff
  refine ⟨⟨congrArg Prod.fst hkey, congrArg Prod.snd hkey⟩, ?holder, ?granted,
    slot.owners.ascending, ?union, ?held, ?free, ?unheld, ?full, ?partly⟩
  case holder =>
    intro l hl
    obtain ⟨g, hg, rfl⟩ := List.mem_map.1 hl
    obtain ⟨o, ho⟩ := howned g hg
    exact ⟨List.ne_nil_of_mem ho, g.owners.ascending⟩
  case granted =>
    rw [← holdings_eq hslot]
    rfl
  case union =>
    intro o
    rw [Slot.mem_state_owners]
    simp [Slot.state]
  case held => rw [hs.held?_eq, Slot.state, List.length_map]
  case free => rw [SlotState.phase_eq_free_iff, hnobody, hs.holdings_eq_nil_iff, Slot.state]
  case unheld => rw [SlotState.phase_eq_free_iff, hholders, hs.holdings_eq_nil_iff, Slot.state]
  case full =>
    rw [SlotState.phase_eq_full_iff]
    refine ⟨And.right, fun hfull => ⟨fun hfree => ?_, hfull⟩⟩
    have hpos := hs.capacity_pos
    simp only [Slot.state] at hfull hfree
    omega
  case partly =>
    rw [SlotState.phase_eq_partiallyHeld_iff, Ne, Ne, Ne, hnobody,
      hs.holdings_eq_nil_iff, Slot.state]

/-- A call that is answered at once has just that answer. -/
theorem answered_iff {before after : List Action} {call : CallId} {request : Request}
    {reply reply' : Reply} (ha : h.actions = before ++ .submit call request :: after)
    (hsubmit : (h.upTo ha).service.submit call request = (h.upTo ha).service.answer call reply) :
    ⟨call, .answered reply'⟩ ∈ h.facts ↔ reply' = reply := by
  have hfacts : ((h.start.run before).service.submit call request).facts =
      [⟨call, .answered reply⟩] :=
    congrArg Turn.facts hsubmit
  have hmine :
      ⟨call, .answered reply⟩ ∈ ((h.start.run before).service.submit call request).facts := by
    rw [hfacts]
    exact List.mem_cons_self
  have hown := factsOf_at_once ha hmine
  rw [hfacts] at hown
  constructor
  · intro hf
    have hmem : ⟨call, .answered reply'⟩ ∈ factsOf call h.facts := mem_factsOf.2 ⟨hf, rfl⟩
    rw [hown] at hmem
    cases List.mem_singleton.1 hmem
    rfl
  · rintro rfl
    have hmem : ⟨call, .answered reply'⟩ ∈ factsOf call h.facts := by
      rw [hown]
      exact List.mem_cons_self
    exact (mem_factsOf.1 hmem).1

end History

/-- An inspection finds a slot where there is one. -/
theorem History.slotState_ok_iff (h : History) (key : Key) (st : SlotState) :
    h.service.slotState key = .ok st ↔
      ∃ slot, h.service.slots.get? key = some slot ∧ st = slot.state := by
  refine ⟨Service.slotState_ok, ?_⟩
  rintro ⟨slot, hslot, rfl⟩
  obtain ⟨t, ht⟩ := registered_of_slot hslot
  rw [registered?_eq] at ht
  simp [Service.slotState, Registry.resolve, ht, hslot]

/-- A resource is locked where somebody owns it. -/
theorem History.isLocked_iff (h : History) (key : Key) :
    h.service.isLocked key = .ok true ↔
      ∃ slot, h.service.slots.get? key = some slot ∧ slot.state.owners ≠ [] := by
  cases hslot : h.service.slots.get? key with
  | some slot =>
    have hstate := (h.slotState_ok_iff key slot.state).2 ⟨slot, hslot, rfl⟩
    have hheld := (h.orderly.ledger.sound key slot hslot).held?_eq
    have howned := Slot.state_owners_eq_nil fun g hg => exists_owner hslot hg
    simp only [Service.isLocked, hstate, hheld, Option.any_some, Except.ok.injEq, decide_eq_true_eq,
      List.length_pos_iff]
    constructor
    · exact fun hout => ⟨slot, rfl, fun hnone => hout (howned.1 hnone)⟩
    · rintro ⟨_, ⟨⟩, howner⟩ hnone
      exact howner (howned.2 hnone)
  | none =>
    have hmissing : h.service.isLocked key ≠ .ok true := by
      unfold Service.isLocked Service.slotState
      rw [hslot]
      cases h.service.registry.resolve key.1 with
      | error e => cases e <;> simp
      | ok t => simp
    simp [hmissing]

/-- Every state that an inspection answers is that of the resource it asked for, and coherent; there
is one exactly where the resource has a slot. A resource is said to be locked exactly where it has a
slot and somebody owns it. -/
theorem snapshots_coherent (h : History) {before after : List Action} {call : CallId} {key : Key} :
    (∀ ha : h.actions = before ++ .submit call (.slotState key) :: after,
      (∀ st, ⟨call, .answered (.ok (.state st))⟩ ∈ h.facts → st.Coherent key (h.upTo ha).facts) ∧
      ((∃ st, ⟨call, .answered (.ok (.state st))⟩ ∈ h.facts) ↔
        ∃ slot, (h.upTo ha).service.slots.get? key = some slot)) ∧
    ∀ ha : h.actions = before ++ .submit call (.isLocked key) :: after,
      (⟨call, .answered (.ok (.flag true))⟩ ∈ h.facts ↔
        ∃ slot, (h.upTo ha).service.slots.get? key = some slot ∧ slot.state.owners ≠ []) := by
  refine ⟨fun ha => ?_, fun ha => ?_⟩
  · have hanswer (st : SlotState) : ⟨call, .answered (.ok (.state st))⟩ ∈ h.facts ↔
        ∃ slot, (h.upTo ha).service.slots.get? key = some slot ∧ st = slot.state := by
      rw [History.answered_iff ha rfl, ← (h.upTo ha).slotState_ok_iff]
      cases (h.upTo ha).service.slotState key <;> simp [Except.map, eq_comm]
    refine ⟨fun st hst => ?_, ?_⟩
    · obtain ⟨slot, hslot, rfl⟩ := (hanswer st).1 hst
      exact History.coherent_state hslot
    · simp only [hanswer]
      constructor
      · rintro ⟨st, slot, hslot, -⟩
        exact ⟨slot, hslot⟩
      · rintro ⟨slot, hslot⟩
        exact ⟨_, slot, hslot, rfl⟩
  · rw [History.answered_iff ha rfl, ← (h.upTo ha).isLocked_iff]
    cases (h.upTo ha).service.isLocked key <;> simp [Except.map, eq_comm]

/-- Of a document with two permits the older one is returned by one of its group, and a third group
gets it. -/
def inspected : History where
  start := .withType ⟨"doc", 2, .sharedGroup⟩
  actions := [.submit 1 (.lock "doc" 1 (.group [9, 7, 9])), .move 1, .move 1,
    .submit 2 (.lock "doc" 1 (.group [7, 3])), .move 2, .move 2,
    .submit 3 (.unlock "doc" 1 (.group [9])), .submit 4 (.lock "doc" 1 (.group [8, 1])),
    .move 4, .move 4, .submit 5 (.slotState ("doc", 1)), .submit 6 (.isLocked ("doc", 1))]
  isNew := Service.new_groupDoc
  numbered := by decide

theorem snapshots_coherent_inspected :
    (∃ st, ⟨5, .answered (.ok (.state st))⟩ ∈ inspected.facts ∧ st.holders = [[3, 7], [1, 8]] ∧
      st.owners = [1, 3, 7, 8] ∧ st.phase = .full ∧
      st.Coherent ("doc", 1) (inspected.start.run (inspected.actions.take 10)).facts) ∧
    ⟨6, .answered (.ok (.flag true))⟩ ∈ inspected.facts := by
  obtain ⟨hstates, -⟩ := @snapshots_coherent inspected (inspected.actions.take 10) _ 5 ("doc", 1)
  obtain ⟨-, hlocked⟩ := @snapshots_coherent inspected (inspected.actions.take 11) [] 6 ("doc", 1)
  have hst :
    ⟨5, .answered (.ok (.state ⟨"doc", 1, .sharedGroup, 2, 0, [1, 3, 7, 8],
      [[3, 7], [1, 8]], 0⟩))⟩ ∈
      inspected.facts := List.mem_of_getElem? (i := 12) rfl
  refine ⟨⟨_, hst, rfl, rfl, rfl, (hstates rfl).1 _ hst⟩, (hlocked rfl).2 ⟨_, rfl, ?_⟩⟩
  exact List.cons_ne_nil 1 [3, 7, 8]

end FairLocks
