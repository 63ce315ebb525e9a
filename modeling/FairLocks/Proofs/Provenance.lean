import FairLocks.Proofs.Registrations

/-!
# Where slots and permits come from

A slot is made by the first call that comes to its resource, with the configuration that was
registered when that call began, and keeps it until it is dropped. A permit is granted to a party
that fitted what was registered when the call of the party began. So a slot and the permits on it
need not fit what is registered now, nor each other.
-/
namespace FairLocks

set_option autoImplicit false

namespace Slot.Continues

theorem trans {s s' s'' : Slot} (h : s.Continues s') (h' : s'.Continues s'') : s.Continues s'' where
  key_eq := h'.key_eq.trans h.key_eq
  capacity_eq := h'.capacity_eq.trans h.capacity_eq
  mode_eq := h'.mode_eq.trans h.mode_eq
  serial_le := Nat.le_trans h.serial_le h'.serial_le
  holding := by
    intro g hg
    rcases h'.holding g hg with hg | hg
    · exact h.holding g hg
    · exact .inr (Nat.le_trans h.serial_le hg)

end Slot.Continues

/-- A slot that is there was made just now or was there before. -/
theorem Entry.origin {d d' : Dict Key Slot} {f : Fact} (he : Entry d f d') {key : Key} {slot : Slot}
    (hslot : d'.get? key = some slot) :
    (∃ call t, f = ⟨call, .opened key (Slot.fresh t key.2)⟩ ∧ slot = Slot.fresh t key.2) ∨
    (f.evicts key = false ∧ ∃ slot₀, d.get? key = some slot₀ ∧ slot₀.Continues slot) := by
  have hinsert {k : Key} {found slot' : Slot} (hk : f.evicts key = false)
    (hfound : d.get? k = some found)
      (hc : found.Continues slot') (hslot : (d.insert k slot').get? key = some slot) :
      f.evicts key = false ∧ ∃ slot₀, d.get? key = some slot₀ ∧ slot₀.Continues slot := by
    rw [Dict.get?_insert] at hslot
    split at hslot
    · rename_i heq
      cases hslot
      exact ⟨hk, found, heq ▸ hfound, hc⟩
    · exact ⟨hk, slot, hslot, .refl slot⟩
  cases he with
  | silent changesNothing => exact .inr ⟨changesNothing.evicts key, slot, hslot, .refl slot⟩
  | @opened call t id free =>
    rw [Dict.get?_insert] at hslot
    split at hslot
    · rename_i heq
      cases hslot
      rw [← heq]
      exact .inl ⟨call, t, rfl, rfl⟩
    · exact .inr ⟨rfl, slot, hslot, .refl slot⟩
  | queued found => exact .inr (hinsert rfl found (.enqueue _) hslot)
  | granted found => exact .inr (hinsert rfl found (.grant _ _ _) hslot)
  | gaveUp found => exact .inr (hinsert rfl found (.leave _ _) hslot)
  | returned found released => exact .inr (hinsert rfl found (.release released) hslot)
  | evicted =>
    rw [Dict.get?_filter, Option.filter_eq_some_iff] at hslot
    refine .inr ⟨decide_eq_false fun hkey => ?_, slot, hslot.1, .refl slot⟩
    obtain ⟨slot', hslot', hidle⟩ := mem_keys_filter_idle.1 hkey
    cases hslot.1.symm.trans hslot'
    exact absurd hslot.2 (by simp [hidle])

/-- A slot goes on until it is dropped. -/
theorem Entries.slot_continues {d d' : Dict Key Slot} {fs : List Fact}
    (h : Entries d fs d') {key : Key}
    {slot : Slot} (hslot : d.get? key = some slot) (hkept : ∀ f ∈ fs, f.evicts key = false) :
    ∃ slot', d'.get? key = some slot' ∧ slot.Continues slot' := by
  induction h generalizing slot with
  | nil => exact ⟨slot, hslot, .refl slot⟩
  | cons first _ ih =>
    obtain ⟨hf, hfs⟩ := List.forall_mem_cons.1 hkept
    obtain ⟨slot₁, hslot₁, hc⟩ := first.slot_continues hslot hf
    obtain ⟨slot', hslot', hc'⟩ := ih hslot₁ hfs
    exact ⟨slot', hslot', hc.trans hc'⟩

theorem Leads.slot_continues {who : CallId → Prop} {past past' : List Fact} {s s' : Service}
    (h : Leads who past s past' s') {key : Key} {slot : Slot}
    (hslot : s.slots.get? key = some slot) :
    ∃ fs, past' = past ++ fs ∧ ((∀ f ∈ fs, f.evicts key = false) →
      ∃ slot', s'.slots.get? key = some slot' ∧ slot.Continues slot') := by
  induction h with
  | refl => exact ⟨[], (List.append_nil _).symm, fun _ => ⟨slot, hslot, .refl slot⟩⟩
  | @step _ _ _ t _ _ step ih =>
    obtain ⟨fs, rfl, hbefore⟩ := ih
    refine ⟨fs ++ t.facts, List.append_assoc .., fun hkept => ?_⟩
    obtain ⟨slot₁, hslot₁, hc⟩ := hbefore fun f hf => hkept f (List.mem_append_left _ hf)
    obtain ⟨slot', hslot', hc'⟩ :=
      step.entries.slot_continues hslot₁ fun f hf => hkept f (List.mem_append_right _ hf)
    exact ⟨slot', hslot', hc.trans hc'⟩
  | pass _ _ ih => exact ih
  | doze _ dozes ih =>
    obtain ⟨fs, hpast, hbefore⟩ := ih
    refine ⟨fs, hpast, fun hkept => ?_⟩
    obtain ⟨slot₁, hslot₁, hc⟩ := hbefore hkept
    obtain ⟨slot', hslot', hc'⟩ := dozes.slot_continues hslot₁
    exact ⟨slot', hslot', hc.trans hc'⟩

namespace Ledger

variable {past : List Fact} {d : Dict Key Slot} {key : Key}

/-- A slot that is there was made at some time, with the configuration that it has, and not dropped
since. -/
theorem opened_of_get? {slot : Slot} (h : Ledger past d) (hslot : d.get? key = some slot) :
    ∃ p m call t, past = p ++ ⟨call, .opened key (Slot.fresh t key.2)⟩ :: m ∧
      (∀ f ∈ m, f.evicts key = false) ∧ slot.capacity = t.capacity ∧
        slot.sharingMode = t.sharingMode := by
  induction h generalizing slot with
  | nil => cases hslot
  | @snoc past d d' f _ he ih =>
    rcases he.origin hslot with ⟨call, t, rfl, rfl⟩ | ⟨hf, slot₀, hslot₀, hc⟩
    · exact ⟨past, [], call, t, rfl, fun f hf => absurd hf List.not_mem_nil, rfl, rfl⟩
    · obtain ⟨p, m, call, t, rfl, hm, hcapacity, hmode⟩ := ih hslot₀
      refine ⟨p, m ++ [f], call, t, by simp, fun f' hf' => ?_, hc.capacity_eq.trans hcapacity,
        hc.mode_eq.trans hmode⟩
      rcases List.mem_append.1 hf' with hf' | hf'
      · exact hm f' hf'
      · rw [List.mem_singleton.1 hf', hf]
  | dozed _ hdoze ih =>
    obtain ⟨slot₀, awake, hslot₀, heq⟩ := hdoze.get?_eq hslot
    obtain ⟨p, m, call, t, hpast, hm, hcapacity, hmode⟩ := ih hslot₀
    subst heq
    exact ⟨p, m, call, t, hpast, hm, hcapacity, hmode⟩

theorem owners_of_granted {call : CallId} {ticket : Nat} {g : Holding} {party : Party}
    {budget : Option Nat} (h : Ledger past d)
    (hg : ⟨call, .granted key ticket g party budget⟩ ∈ past) : g.owners = party.owners := by
  induction h with
  | nil => exact absurd hg List.not_mem_nil
  | snoc _ he ih =>
    rcases List.mem_append.1 hg with hg | hg
    · exact ih hg
    · cases List.mem_singleton.1 hg
      obtain ⟨-, slot, -, -, -, -, rfl⟩ := he.of_granted
      rfl
  | dozed _ _ ih => exact ih hg

end Ledger

namespace History

variable {h : History} {key : Key} {slot : Slot}

/-- What was registered by some moment is registered later on. -/
theorem mem_registered_of_le {before between after before' after' : List Action} {t : ResourceType}
    (ha : h.actions = before ++ after) (ha' : h.actions = before' ++ after')
    (hle : before' = before ++ between) (ht : t ∈ (h.upTo ha).registered) :
    t ∈ (h.upTo ha').registered := by
  subst hle
  rcases List.mem_append.1 ht with ht | ht
  · exact List.mem_append_left _ ht
  · obtain ⟨f, hf, hfact⟩ := List.mem_filterMap.1 ht
    refine List.mem_append_right _ (List.mem_filterMap.2 ⟨f, ?_, hfact⟩)
    change f ∈ (h.start.run (before ++ between)).facts
    rw [Service.facts_run_append]
    exact List.mem_append_left _ hf

theorem mem_registered {name : String} {t : ResourceType} (ht : h.registered? name = some t) :
    t ∈ h.registered ∧ t.name = name := by
  obtain ⟨hmem, hname⟩ := List.mem_filter.1 (List.mem_of_getLast? ht)
  exact ⟨hmem, of_decide_eq_true hname⟩

theorem Began.mem_registered {call : CallId} {typeName : String} {party : Party} {t : ResourceType}
    (hb : h.Began call typeName party t) : t ∈ h.registered ∧ t.name = typeName := by
  obtain ⟨before, request, ids, after, ha, -, ht⟩ := hb
  obtain ⟨hmem, hname⟩ := History.mem_registered ht
  exact ⟨mem_registered_of_le (h := h) ha (List.append_nil _).symm ha hmem, hname⟩

/-- Whoever makes a slot began before, so the type has been registered by then. -/
theorem began_of_opened {before after : List Action} {a : Action} {call : CallId}
    (ha : h.actions = before ++ a :: after)
    (hf : ⟨call, .opened key slot⟩ ∈ ((h.upTo ha).service.act a).facts) :
    ∃ party began, h.Began call key.1 party began ∧ slot = Slot.fresh began key.2 ∧
      began.name = key.1 ∧
      began ∈ (h.upTo ha).registered := by
  have ha' : h.actions = (before ++ [a]) ++ after := by simp [ha]
  have hmem : ⟨call, .opened key slot⟩ ∈ (h.upTo ha').facts :=
    mem_facts_of_act (show (h.upTo ha').actions = before ++ a :: [] from rfl) hf
  obtain ⟨typeName, party, began, ⟨b, request, ids, b', hb, hseeks, ht⟩, hname, -, -,
    hkey, hfresh⟩ := began_of_mem hmem id
  have hb' : before ++ [a] = b ++ .submit call request :: b' := hb
  have hlength : b.length ≤ before.length := by
    have hlengths := congrArg List.length hb'
    simp only [List.length_append, List.length_cons, List.length_nil] at hlengths
    omega
  obtain ⟨m, hm⟩ : b <+: before :=
    List.prefix_of_prefix_length_le (List.prefix_append b _)
      (hb' ▸ List.prefix_append before [a]) hlength
  have hwhole : h.actions = b ++ .submit call request :: (b' ++ after) := by
    rw [ha', hb', List.append_assoc, List.cons_append]
  have hregistered := (History.mem_registered ht).1
  rw [hkey, hname]
  exact ⟨party, began, ⟨b, request, ids, b' ++ after, hwhole, hseeks, ht⟩, hfresh, hname,
    mem_registered_of_le hwhole ha hm.symm hregistered⟩

/-- A slot that stands was made for a call, as the type was registered when the call began. -/
theorem slot_origin (hslot : h.service.slots.get? key = some slot) :
    ∃ p m call party made, h.facts = p ++ ⟨call, .opened key (Slot.fresh made key.2)⟩ :: m ∧
      (∀ f ∈ m, f.evicts key = false) ∧ h.Began call key.1 party made ∧
      slot.capacity = made.capacity ∧ slot.sharingMode = made.sharingMode := by
  obtain ⟨p, m, call, t, hfacts, hkept, hcapacity, hmode⟩ := h.orderly.ledger.opened_of_get? hslot
  have hmem : ⟨call, .opened key (Slot.fresh t key.2)⟩ ∈ h.facts := by
    rw [hfacts]
    exact List.mem_append_right _ List.mem_cons_self
  obtain ⟨typeName, party, made, hbegan, hname, -, -, hkey, hfresh⟩ := began_of_mem hmem id
  rw [hfresh] at hfacts
  have hsame : t.capacity = made.capacity ∧ t.sharingMode = made.sharingMode :=
    ⟨congrArg Slot.capacity hfresh, congrArg Slot.sharingMode hfresh⟩
  refine ⟨p, m, call, party, made, hfacts, hkept, ?_, hcapacity.trans hsame.1, hmode.trans hsame.2⟩
  rw [hkey, hname]
  exact hbegan

/-- A permit that is out was granted to a party that fitted what was registered when its call
began. -/
theorem holding_origin (hslot : h.service.slots.get? key = some slot) {g : Holding}
    (hg : g ∈ slot.holdings) :
    ∃ party got, h.Began g.grantee key.1 party got ∧ g.owners = party.owners ∧
      party.mode = got.sharingMode := by
  have hout : g ∈ holdingsAt h.service.slots key := by
    rw [holdingsAt_eq hslot]
    exact hg
  obtain ⟨p, m, ticket, party, budget, hfacts, -⟩ := h.orderly.ledger.granted_of_out hout
  have hmem : ⟨g.grantee, .granted key ticket g party budget⟩ ∈ h.facts := by
    rw [hfacts]
    exact List.mem_append_right _ List.mem_cons_self
  obtain ⟨typeName, party', got, hbegan, hname, hfits, -, hkey, rfl⟩ := began_of_mem hmem id
  refine ⟨party, got, ?_, h.orderly.ledger.owners_of_granted hmem, hfits.symm⟩
  rw [hkey, hname]
  exact hbegan

/-- Every permit that is out belongs to somebody. -/
theorem exists_owner (hslot : h.service.slots.get? key = some slot) {g : Holding}
    (hg : g ∈ slot.holdings) :
    ∃ o, o ∈ g.owners := by
  have hout : g ∈ holdingsAt h.service.slots key := by
    rw [holdingsAt_eq hslot]
    exact hg
  obtain ⟨p, m, ticket, party, budget, hfacts, -⟩ := h.orderly.ledger.granted_of_out hout
  have hmem : ⟨g.grantee, .granted key ticket g party budget⟩ ∈ h.facts := by
    rw [hfacts]
    exact List.mem_append_right _ List.mem_cons_self
  obtain ⟨_, party', _, -, -, -, hnamed, -, rfl⟩ := began_of_mem hmem id
  obtain ⟨o, ho⟩ := List.exists_mem_of_ne_nil _ hnamed
  refine ⟨o, ?_⟩
  rw [h.orderly.ledger.owners_of_granted hmem]
  exact OwnerSet.mem_ofList.2 ho

/-- The type of a slot that stands is registered. -/
theorem registered_of_slot (hslot : h.service.slots.get? key = some slot) :
    ∃ t, h.registered? key.1 = some t := by
  obtain ⟨_, _, _, _, made, -, -, hbegan, -⟩ := slot_origin hslot
  obtain ⟨hmem, hname⟩ := hbegan.mem_registered
  cases hnow : h.registered? key.1 with
  | none => exact absurd hname (registered?_eq_none_iff.1 hnow made hmem)
  | some t => exact ⟨t, rfl⟩

end History

theorem Party.exists_owner_iff (party : Party) :
    (∃ o, party = .owner o) ↔ party.mode = .exclusivePerOwner := by
  cases party with
  | owner o => exact ⟨fun _ => rfl, fun _ => ⟨o, rfl⟩⟩
  | group os =>
    constructor
    · rintro ⟨_, ⟨⟩⟩
    · intro h
      cases h

/-- A new slot has the configuration that was registered when the call that makes it began. That is
the one registered now exactly where the type is still the same. A slot that stands keeps its
configuration until it is dropped. -/
theorem slot_configuration (h : History) :
    (∀ before a after (ha : h.actions = before ++ a :: after) call key slot,
      ⟨call, .opened key slot⟩ ∈ ((h.upTo ha).service.act a).facts →
      ∃ party began now, h.Began call key.1 party began ∧ (h.upTo ha).registered? key.1 = some now ∧
        slot = Slot.fresh began key.2 ∧
        (slot.capacity = now.capacity ∧ slot.sharingMode = now.sharingMode ↔ began = now)) ∧
    ∀ before after (ha : h.actions = before ++ after) key slot,
      (h.upTo ha).service.slots.get? key = some slot →
      (∀ f ∈ ((h.upTo ha).service.run after).facts, f.evicts key = false) →
      ∃ slot', h.service.slots.get? key = some slot' ∧ slot'.capacity = slot.capacity ∧
        slot'.sharingMode = slot.sharingMode := by
  constructor
  · intro before a after ha call key slot hf
    obtain ⟨party, began, hbegan, rfl, hname, hregistered⟩ := History.began_of_opened ha hf
    cases hnow : (h.upTo ha).registered? key.1 with
    | none => exact absurd hname (History.registered?_eq_none_iff.1 hnow began hregistered)
    | some now =>
      refine ⟨party, began, now, hbegan, rfl, rfl, ?_, ?_⟩
      · rintro ⟨hcapacity, hmode⟩
        have hsame : began.name = now.name := hname.trans (History.mem_registered hnow).2.symm
        cases began
        cases now
        exact (ResourceType.mk.injEq ..).mpr ⟨hsame, hcapacity, hmode⟩
      · rintro rfl
        exact ⟨rfl, rfl⟩
  · intro before after ha key slot hslot hkept
    obtain ⟨fs, hfacts, hcontinues⟩ := (History.leads ha).slot_continues hslot
    have hfs : fs = ((h.upTo ha).service.run after).facts := by
      have hwhole : h.facts = (h.upTo ha).facts ++ ((h.upTo ha).service.run after).facts := by
        rw [History.facts, ha, Service.facts_run_append]
        rfl
      exact List.append_cancel_left (hfacts.symm.trans hwhole)
    obtain ⟨slot', hslot', hc⟩ := hcontinues (by rw [hfs]; exact hkept)
    exact ⟨slot', hslot', hc.capacity_eq, hc.mode_eq⟩

/-- While a call for two documents waits for the first, documents get a second permit each. -/
def reRegisteredMeanwhile : History where
  start := .withType ⟨"doc", 1, .exclusivePerOwner⟩
  actions := [.submit 1 (.lock "doc" 1 (.owner 1)), .move 1, .move 1,
    .submit 2 (.lockMany "doc" [1, 2] (.owner 7)), .move 2,
    .submit 3 (.createType ⟨"doc", 2, .exclusivePerOwner⟩), .submit 4 (.unlock "doc" 1 (.owner 1)),
    .move 2, .move 2]
  isNew := Service.new_doc
  numbered := by decide

/-- The slot of the second document is made with one permit when two are registered. -/
theorem slot_configuration_reRegisteredMeanwhile :
    ∃ party began now, reRegisteredMeanwhile.Began 2 "doc" party began ∧
      now = ⟨"doc", 2, .exclusivePerOwner⟩ ∧
        Slot.fresh ⟨"doc", 1, .exclusivePerOwner⟩ 2 = Slot.fresh began 2 ∧
      began ≠ now := by
  obtain ⟨party, began, now, hbegan, hnow, hfresh, hiff⟩ :=
    (slot_configuration reRegisteredMeanwhile).1
    (reRegisteredMeanwhile.actions.take 8) (.move 2) [] rfl 2 ("doc", 2)
    (Slot.fresh ⟨"doc", 1, .exclusivePerOwner⟩ 2) List.mem_cons_self
  have htwo : now = ⟨"doc", 2, .exclusivePerOwner⟩ := (Option.some.inj hnow).symm
  subst htwo
  exact ⟨party, began, _, hbegan, rfl, hfresh, fun heq => absurd (hiff.2 heq).1 (by decide)⟩

/-- A new slot may have another configuration than the one that is registered. -/
theorem slot_configuration_stale :
    ¬ ∀ (h : History) before a after (ha : h.actions = before ++ a :: after) call key slot,
      ⟨call, .opened key slot⟩ ∈ ((h.upTo ha).service.act a).facts →
      ∃ now, (h.upTo ha).registered? key.1 = some now ∧ slot.capacity = now.capacity ∧
        slot.sharingMode = now.sharingMode := by
  intro hall
  obtain ⟨now, hnow, hcapacity, -⟩ :=
    hall reRegisteredMeanwhile (reRegisteredMeanwhile.actions.take 8)
    (.move 2) [] rfl 2 ("doc", 2) (Slot.fresh ⟨"doc", 1, .exclusivePerOwner⟩ 2) List.mem_cons_self
  have htwo : now = ⟨"doc", 2, .exclusivePerOwner⟩ := (Option.some.inj hnow).symm
  subst htwo
  exact absurd hcapacity (by decide)

/-- On an exclusive slot a permit belongs to one owner exactly where the type was registered in the
mode of the slot when the call that was granted the permit began. So it does if the name never stood
for another mode. -/
theorem exclusive_permit_iff (h : History) {key : Key} {slot : Slot}
    (hslot : h.service.slots.get? key = some slot) :
    ∃ call party made, h.Began call key.1 party made ∧
      slot.sharingMode = made.sharingMode ∧
      (∀ g ∈ slot.holdings, ∃ party' got, h.Began g.grantee key.1 party' got ∧
        g.owners = party'.owners ∧
        (slot.sharingMode = .exclusivePerOwner →
          ((∃ o, party' = .owner o ∧ g.owners.toList = [o]) ↔
            got.sharingMode = made.sharingMode))) ∧
      ((∀ t ∈ h.registered, t.name = key.1 → t.sharingMode = .exclusivePerOwner) →
        slot.sharingMode = .exclusivePerOwner ∧ ∀ g ∈ slot.holdings, ∃ o,
          g.owners.toList = [o]) := by
  obtain ⟨p, m, call, party, made, -, -, hmade, -, hmode⟩ := History.slot_origin hslot
  refine ⟨call, party, made, hmade, hmode, fun g hg => ?_, fun hall => ⟨?_, fun g hg => ?_⟩⟩
  · obtain ⟨party', got, hgot, howners, hfits⟩ := History.holding_origin hslot hg
    refine ⟨party', got, hgot, howners, fun hexclusive => ?_⟩
    rw [← hmode, hexclusive, ← hfits, ← Party.exists_owner_iff]
    constructor
    · rintro ⟨o, rfl, -⟩
      exact ⟨o, rfl⟩
    · rintro ⟨o, rfl⟩
      exact ⟨o, rfl, by rw [howners]; rfl⟩
  · obtain ⟨hregistered, hname⟩ := hmade.mem_registered
    exact hmode.trans (hall made hregistered hname)
  · obtain ⟨party', got, hgot, howners, hfits⟩ := History.holding_origin hslot hg
    obtain ⟨hregistered, hname⟩ := hgot.mem_registered
    obtain ⟨o, rfl⟩ := party'.exists_owner_iff.2 (hfits.trans (hall got hregistered hname))
    exact ⟨o, by rw [howners]; rfl⟩

/-- A document is locked by one owner; then documents are for groups, and a group gets the second
permit. -/
def sharedMeanwhile : History where
  start := .withType ⟨"doc", 2, .exclusivePerOwner⟩
  actions := [.submit 1 (.lock "doc" 1 (.owner 1)), .move 1, .move 1,
    .submit 2 (.createType ⟨"doc", 2, .sharedGroup⟩), .submit 3 (.lock "doc" 1 (.group [7, 9])),
    .move 3]
  isNew := Service.new_withType Nat.two_pos
  numbered := by decide

theorem exclusive_permit_iff_sharedMeanwhile :
    ∃ made : ResourceType, made.sharingMode = .exclusivePerOwner ∧
      ∃ party got, sharedMeanwhile.Began 3 "doc" party got ∧
        got.sharingMode ≠ made.sharingMode := by
  have hslot : sharedMeanwhile.service.slots.get? ("doc", 1) =
      some ⟨("doc", 1), 2, .exclusivePerOwner, 0,
        [⟨0, OwnerSet.ofList [1], 1⟩, ⟨1, OwnerSet.ofList [7, 9], 3⟩], 2, [], 2, []⟩ :=
    rfl
  obtain ⟨call, party, made, -, hmode, hall, -⟩ := exclusive_permit_iff sharedMeanwhile hslot
  obtain ⟨party', got, hgot, -, hiff⟩ := hall ⟨1, OwnerSet.ofList [7, 9], 3⟩
    (List.mem_cons_of_mem _ List.mem_cons_self)
  refine ⟨made, hmode.symm, party', got, hgot, fun hsame => ?_⟩
  obtain ⟨o, -, hone⟩ := (hiff rfl).2 hsame
  exact absurd (congrArg List.length hone) (show 2 ≠ 1 by decide)

/-- An exclusive slot may have a permit out that belongs to several owners. -/
theorem exclusive_permit_shared :
    ¬ ∀ (h : History) (key : Key) (slot : Slot), h.service.slots.get? key = some slot →
      slot.sharingMode = .exclusivePerOwner → ∀ g ∈ slot.holdings, ∃ o, g.owners.toList = [o] := by
  intro hall
  obtain ⟨o, hone⟩ := hall sharedMeanwhile ("doc", 1)
    ⟨("doc", 1), 2, .exclusivePerOwner, 0,
      [⟨0, OwnerSet.ofList [1], 1⟩, ⟨1, OwnerSet.ofList [7, 9], 3⟩], 2, [], 2, []⟩ rfl rfl
    ⟨1, OwnerSet.ofList [7, 9], 3⟩ (List.mem_cons_of_mem _ List.mem_cons_self)
  exact absurd (congrArg List.length hone) (show 2 ≠ 1 by decide)

end FairLocks
