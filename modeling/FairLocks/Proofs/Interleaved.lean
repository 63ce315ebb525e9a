import FairLocks.Proofs.Batches

/-!
# An unlock of several resources that others interrupt

The library gives back one resource after another and holds no lock over the whole of it, so others
may act between two members of the list. In a run of a service such an unlock is one action. Nothing
is lost by that: the same comes about in a run in which every member is unlocked by a call of its
own, and so whatever holds of all histories holds in the midst of such an unlock too. An unlock is
checked once, at its beginning. If others put a type of the other mode in its place, the call that
stands for a member names, in the way of that mode, an owner of the permit that is given back.
-/
namespace FairLocks

set_option autoImplicit false

namespace Slot

variable {slot slot' slot₁ : Slot} {party party' : Party} {g g₁ : Holding}

theorem Returns.held (h : slot.Returns party g slot') : g ∈ slot.holdings ∧ party.Holds g := by
  obtain ⟨l, r, hlr, -, hg, -⟩ := h
  exact ⟨by simp [hlr], hg⟩

theorem Returns.find? (h : slot.Returns party g slot') :
    slot.holdings.find? (fun k => party.Holds k) = some g := by
  obtain ⟨l, r, hlr, hl, hg, -⟩ := h
  exact List.find?_eq_some_iff_append.2 ⟨decide_eq_true hg, l, r, hlr,
    fun k hk => by simpa using hl k hk⟩

theorem Returns.eq_erase (h : slot.Returns party g slot') :
    slot' = { slot with
      holdings := slot.holdings.eraseP fun k => party.Holds k
      available := slot.available + 1
      awake := slot.queue } := by
  obtain ⟨l, r, hlr, hl, hg, rfl⟩ := h
  have herase : (slot.holdings.eraseP fun k => party.Holds k) = l ++ r := by
    rw [hlr, List.eraseP_append_right _ fun k hk => by simpa using hl k hk]
    simp [hg]
  rw [herase]

/-- Which permit a party gives back is settled. -/
theorem Returns.unique (h : slot.Returns party g slot') (h₁ : slot.Returns party g₁ slot₁) :
    g₁ = g ∧ slot₁ = slot' := by
  refine ⟨?_, h₁.eq_erase.trans h.eq_erase.symm⟩
  have hfind := h₁.find?
  rw [h.find?, Option.some.injEq] at hfind
  exact hfind.symm

/-- The oldest permit that a party holds is the oldest that one of its owners has a part in. -/
theorem Returns.of_owner (h : slot.Returns party g slot') {mode : SharingMode} {o : OwnerId}
    (listed : o ∈ party.listed) (owns : o ∈ g.owners) : slot.Returns (mode.partyOf o) g slot' := by
  obtain ⟨l, r, hlr, hl, hg, hslot'⟩ := h
  refine ⟨l, r, hlr, fun k hk hholds => hl k hk ?_, SharingMode.holds_partyOf.2 owns, hslot'⟩
  exact ⟨o, listed, SharingMode.holds_partyOf.1 hholds⟩

end Slot

namespace Service

variable {s : Service} {call : CallId} {typeName : String} {party : Party} {id : ResourceId}

/-- The next step of an unlock that has these resources left, or has been answered. -/
def proceed (s : Service) (call : CallId) (typeName : String) (party : Party) :
    Option (List ResourceId) → Turn × Option (List ResourceId)
  | none => (s.rest, none)
  | some [] => (s.answer call (.ok .done), none)
  | some (id :: ids) =>
    match s.giveBack call (typeName, id) party fun g => party.Holds g with
    | .error e => (s.answer call (.error e), none)
    | .ok t => (t, some ids)

/-- An action of others, or the next step of the unlock. -/
def interrupt (s : Service) (call : CallId) (typeName : String) (party : Party)
    (left : Option (List ResourceId)) : Option Action → Turn × Option (List ResourceId)
  | some a => (s.act a, left)
  | none => s.proceed call typeName party left

/-- The unlock takes its steps where `none` stands in the list; the actions are those of others. -/
def interleaved (s : Service) (call : CallId) (typeName : String) (party : Party)
    (left : Option (List ResourceId)) : List (Option Action) → Turn
  | [] => s.rest
  | a :: l =>
    let (t, left) := s.interrupt call typeName party left a
    t.andThen fun s => s.interleaved call typeName party left l

theorem interleaved_answered (s : Service) (n : Nat) :
    s.interleaved call typeName party none (List.replicate n none) = s.rest := by
  induction n with
  | zero => rfl
  | succ n ih =>
    rw [List.replicate_succ, interleaved, interrupt, proceed]
    simp only [Turn.andThen, rest, ih, List.append_nil]

/-- If nobody interrupts it, the unlock is one action. -/
theorem interleaved_alone (s : Service) (ids : List ResourceId) :
    s.interleaved call typeName party (some ids) (List.replicate (ids.length + 1) none) =
      s.giveBackAll call typeName party ids := by
  induction ids generalizing s with
  | nil =>
    simp only [List.length_nil, List.replicate_succ, List.replicate_zero, interleaved,
      interrupt, proceed, Turn.andThen, rest, giveBackAll, answer, List.append_nil]
  | cons id ids ih =>
    rw [List.length_cons, List.replicate_succ, interleaved, interrupt, proceed, giveBackAll]
    cases s.giveBack call (typeName, id) party fun g => party.Holds g with
    | ok t => simp only [Turn.andThen, ih]
    | error e => simp only [Turn.andThen, interleaved_answered, answer, rest, List.append_nil]

/-- If the type is registered, it is with the mode of the party. -/
def Fits (s : Service) (typeName : String) (party : Party) : Prop :=
  ∀ now, s.registry.types.get? typeName = some now → now.sharingMode = party.mode

end Service

/-- The turns leave the same, and the same permits are granted and returned. -/
structure Turn.SamePermits (t u : Turn) : Prop where
  service : u.service = t.service
  grants : ∀ key, grantsOn key u.facts = grantsOn key t.facts
  returns : ∀ key, returnsOn key u.facts = returnsOn key t.facts

/-- What is told of a return, and the replies, tell of no other permit. -/
theorem permits_returned (s : Service) (x : CallId) (key : Key) (g : Holding) (party : Party)
    (event : LockEvent) (replies : List Fact)
    (hreplies : ∀ f ∈ replies, ∃ reply, f.deed = .answered reply) (k : Key) :
    grantsOn k (⟨x, .returned key g party⟩ :: s.announce x .unlocked event ++ replies) = [] ∧
      returnsOn k (⟨x, .returned key g party⟩ :: s.announce x .unlocked event ++ replies) =
        if key = k then [g] else [] := by
  have hnone : ∀ f ∈ s.announce x .unlocked event ++ replies, f.grantOn? k = none ∧
      f.returnOn? k = none := by
    intro f hf
    rcases List.mem_append.1 hf with hf | hf
    · obtain ⟨-, _, _, _, hdeed⟩ := Service.tells_announce s x .unlocked event f hf
      simp only [Fact.grantOn?, Fact.returnOn?, hdeed, and_self]
    · obtain ⟨reply, hdeed⟩ := hreplies f hf
      simp only [Fact.grantOn?, Fact.returnOn?, hdeed, and_self]
  have hgrants := List.filterMap_eq_nil_iff.2 fun f hf => (hnone f hf).1
  have hreturns := List.filterMap_eq_nil_iff.2 fun f hf => (hnone f hf).2
  rw [List.cons_append, grantsOn, returnsOn, List.filterMap_cons, List.filterMap_cons,
    hgrants, hreturns]
  refine ⟨rfl, ?_⟩
  by_cases hkey : key = k <;> simp [Fact.returnOn?, hkey]

namespace Service

variable {s : Service} {call : CallId} {typeName : String} {party : Party} {id : ResourceId}
    {ids : List ResourceId}

/-- What comes of it when a call gives back a permit of one resource and is answered. -/
def returned (s : Service) (x : CallId) (key : Key) (slot' : Slot) (g : Holding) (party : Party) :
    Turn :=
  ⟨{ s with slots := s.slots.insert key slot' },
    ⟨x, .returned key g party⟩ :: s.announce x .unlocked ⟨key.1, key.2, party.listed⟩ ++
      [⟨x, .answered (.ok .done)⟩]⟩

theorem submit_unlock_of_returns {key : Key} {slot slot' : Slot} {g : Holding} {type : ResourceType}
    (resolved : s.resolveFor key.1 party = .ok type) (found : s.slots.get? key = some slot)
    (sound : slot.Sound) (h : slot.Returns party g slot') (x : CallId) :
    s.submit x (.unlock key.1 key.2 party) = s.returned x key slot' g party := by
  obtain ⟨g₁, slot₁, h₁, hturn⟩ := submit_unlock_of_held resolved found sound ⟨g, h.held⟩
  obtain ⟨rfl, rfl⟩ := h.unique h₁
  exact hturn x

/-- In whoever's name the permit is given back, it is the same permit. -/
theorem samePermits_returned (s : Service) (call x : CallId) (key : Key) (slot' : Slot)
    (g : Holding) (party party' : Party) :
    Turn.SamePermits
      ⟨{ s with slots := s.slots.insert key slot' },
        ⟨call, .returned key g party⟩ ::
          s.announce call .unlocked ⟨key.1, key.2, party.listed⟩⟩
      (s.returned x key slot' g party') := by
  have hours := permits_returned s call key g party ⟨key.1, key.2, party.listed⟩ [] (by simp)
  have htheirs := permits_returned s x key g party' ⟨key.1, key.2, party'.listed⟩
    [⟨x, .answered (.ok .done)⟩] (by simp)
  simp only [List.append_nil] at hours
  exact ⟨rfl, fun k => (htheirs k).1.trans (hours k).1.symm,
    fun k => (htheirs k).2.trans (hours k).2.symm⟩

/-- Where nothing can be given back, be it that the mode has changed, a single unlock does nothing
either. -/
theorem samePermits_of_returnError {e : LockError}
    (herror : s.returnError? (typeName, id) party = some e) (keyed : Keyed s.slots) (x : CallId) :
    Turn.SamePermits (s.proceed call typeName party (some (id :: ids))).1
        (s.submit x (.unlock typeName id party)) ∧
      (s.submit x (.unlock typeName id party)).facts.filterMap Fact.done? =
        (s.proceed call typeName party (some (id :: ids))).1.facts.filterMap Fact.done? := by
  have hback := giveBack_of_returnError keyed herror
  obtain ⟨e', hsubmit⟩ : ∃ e', s.submit x (.unlock typeName id party) =
      s.answer x (.error e') := by
    cases hresolved : s.resolveFor typeName party with
    | error e' => exact ⟨e', by simp only [submit, unlockAll, hresolved]⟩
    | ok type =>
      refine ⟨e, ?_⟩
      rw [@submit_unlock s x (typeName, id) party type hresolved, hback]
  simp only [hsubmit, proceed, hback, answer]
  exact ⟨⟨rfl, fun _ => rfl, fun _ => rfl⟩, rfl⟩

/-- Each step of the unlock at a member is what a single unlock would do, in the name of the party
if it fits. -/
theorem exists_unlock (registered : ∃ now, s.registry.types.get? typeName = some now)
    (sound : ∀ key slot, s.slots.get? key = some slot → slot.Sound) (keyed : Keyed s.slots) :
    ∃ party', ∀ x, Turn.SamePermits (s.proceed call typeName party (some (id :: ids))).1
        (s.submit x (.unlock typeName id party')) ∧
      (s.Fits typeName party → (s.submit x (.unlock typeName id party')).facts.filterMap
        Fact.done? = (s.proceed call typeName party (some (id :: ids))).1.facts.filterMap
          Fact.done?) := by
  obtain ⟨now, hnow⟩ := registered
  cases herror : s.returnError? (typeName, id) party with
  | some e =>
    refine ⟨party, fun x => ?_⟩
    obtain ⟨hsame, hdone⟩ := samePermits_of_returnError herror keyed x
    exact ⟨hsame, fun _ => hdone⟩
  | none =>
    obtain ⟨slot, found, held⟩ := held_of_returnError herror
    obtain ⟨g, slot', hreturns, hback⟩ := giveBack_of_held found (sound _ _ found) held
    have hsubmit {party' : Party} (resolved : s.resolveFor typeName party' = .ok now)
        (hreturns' : slot.Returns party' g slot') (x : CallId) :
        s.submit x (.unlock typeName id party') = s.returned x (typeName, id) slot' g party' :=
      @submit_unlock_of_returns s party' (typeName, id) slot slot' g now resolved found
        (sound _ _ found) hreturns' x
    have hsame (party' : Party) (x : CallId) : Turn.SamePermits
        (s.proceed call typeName party (some (id :: ids))).1
        (s.returned x (typeName, id) slot' g party') := by
      simp only [proceed, hback]
      exact s.samePermits_returned call x (typeName, id) slot' g party party'
    obtain ⟨o, listed, owns⟩ := hreturns.held.2
    by_cases mode : now.sharingMode = party.mode
    · have resolved : s.resolveFor typeName party = .ok now := by
        refine resolveFor_ok_iff.2 ⟨hnow, mode, ?_⟩
        rintro rfl
        cases listed
      refine ⟨party, fun x => ?_⟩
      rw [hsubmit resolved hreturns x]
      refine ⟨hsame party x, fun _ => ?_⟩
      have hdone := s.done_announce x call .unlocked ⟨typeName, id, party.listed⟩
      simp only [proceed, hback, returned, List.cons_append, List.filterMap_cons,
        List.filterMap_append, hdone]
      simp [Fact.done?]
    · refine ⟨now.sharingMode.partyOf o, fun x => ?_⟩
      have resolved : s.resolveFor typeName (now.sharingMode.partyOf o) = .ok now :=
        @resolveFor_partyOf s (typeName, id) now hnow o
      rw [hsubmit resolved (hreturns.of_owner listed owns) x]
      exact ⟨hsame _ x, fun fits => absurd (fits now hnow) mode⟩

theorem registry_proceed (s : Service) (call : CallId) (typeName : String) (party : Party)
    (left : Option (List ResourceId)) :
    (s.proceed call typeName party left).1.service.registry = s.registry := by
  unfold proceed giveBack
  split
  · rfl
  · rfl
  · split <;> rename_i hback
    · rfl
    · split at hback
      · cases hback
      · split at hback <;> cases hback
        rfl

/-- Whatever anybody does, a registered type stays registered, and one that fits goes on to fit if
others put none in its place that does not. -/
theorem registered_interrupt {left : Option (List ResourceId)} (a : Option Action)
    (registered : ∃ now, s.registry.types.get? typeName = some now) :
    (∃ now, (s.interrupt call typeName party left a).1.service.registry.types.get? typeName =
      some now) ∧
      (s.Fits typeName party →
        (∀ x t, a = some (.submit x (.createType t)) → t.name = typeName →
          t.sharingMode = party.mode) →
        (s.interrupt call typeName party left a).1.service.Fits typeName party) := by
  cases a with
  | none =>
    simp only [interrupt, Fits, registry_proceed]
    exact ⟨registered, fun fits _ => fits⟩
  | some a =>
    refine ⟨exists_registered_act registered a, fun fits steady now hnow => ?_⟩
    rcases registry_act s a with ⟨hsame, -⟩ | ⟨x, type, rfl, -, hact⟩
    · rw [interrupt, hsame] at hnow
      exact fits now hnow
    · simp only [interrupt, hact] at hnow
      by_cases hname : type.name = typeName
      · subst hname
        cases (Dict.get?_insert_self _ _ _).symm.trans hnow
        exact steady x now rfl rfl
      · exact fits now ((Dict.get?_insert_of_ne _ _ hname).symm.trans hnow)

end Service

theorem Turn.SamePermits.andThen {t u : Turn} {f g : Service → Turn} (h : t.SamePermits u)
    (more : (f t.service).SamePermits (g u.service)) : (t.andThen f).SamePermits (u.andThen g) where
  service := more.service
  grants := fun key => by
    rw [Turn.facts_andThen, Turn.facts_andThen, grantsOn_append, grantsOn_append, h.grants,
      more.grants]
  returns := fun key => by
    rw [Turn.facts_andThen, Turn.facts_andThen, returnsOn_append, returnsOn_append, h.returns,
      more.returns]

/-- What others do is done; what the unlock does is done by nothing or by an unlock of one
resource. -/
def StandsIn (typeName : String) (number : ResourceId → CallId) : Option Action → List Action → Prop
  | some a, as => as = [a]
  | none, as => as = [] ∨ ∃ id party, as = [.submit (number id) (.unlock typeName id party)]

namespace History

variable {h : History} {typeName : String} {party : Party}

/-- The history goes on with actions whose calls are new. -/
def goOn (h : History) (as : List Action)
    (numbered : ((h.actions ++ as).filterMap Action.number?).Nodup) : History where
  start := h.start
  actions := h.actions ++ as
  isNew := h.isNew
  numbered := numbered

theorem exists_standIn (h : History) (call : CallId) (number : ResourceId → CallId)
    (left : Option (List ResourceId))
    (registered : ∃ now, h.service.registry.types.get? typeName = some now) (a : Option Action) :
    ∃ as, StandsIn typeName number a as ∧
      (as.filterMap Action.number? ++
        ((h.service.interrupt call typeName party left a).2.getD []).map number).Sublist
          ((a.bind Action.number?).toList ++ (left.getD []).map number) ∧
      (h.service.interrupt call typeName party left a).1.SamePermits (h.service.run as) ∧
      (h.service.Fits typeName party → (h.service.run as).facts.filterMap Fact.done? =
        (h.service.interrupt call typeName party left a).1.facts.filterMap Fact.done?) := by
  cases a with
  | some a =>
    refine ⟨[a], rfl, ?_, ?_, fun _ => ?_⟩
    · cases hnumber : a.number? <;> simp [hnumber, Service.interrupt]
    · rw [Service.run_singleton]
      exact ⟨rfl, fun _ => rfl, fun _ => rfl⟩
    · rw [Service.run_singleton]
      rfl
  | none =>
    rcases left with _ | _ | ⟨id, ids⟩
    · exact ⟨[], .inl rfl, List.Sublist.refl _, ⟨rfl, fun _ => rfl, fun _ => rfl⟩, fun _ => rfl⟩
    · exact ⟨[], .inl rfl, List.Sublist.refl _, ⟨rfl, fun _ => rfl, fun _ => rfl⟩, fun _ => rfl⟩
    · have ho := h.orderly
      obtain ⟨party', hsame⟩ :=
        @Service.exists_unlock h.service call typeName party id ids registered
        ho.ledger.sound ho.ledger.keyed
      refine ⟨[.submit (number id) (.unlock typeName id party')],
        .inr ⟨id, party', rfl⟩, ?_, ?_, ?_⟩
      · simp only [Service.interrupt, Service.proceed]
        split <;> simp [Action.number?]
      · rw [Service.run_singleton]
        exact (hsame (number id)).1
      · rw [Service.run_singleton]
        exact (hsame (number id)).2

/-- Numbers stay apart when some of them are used up. -/
theorem nodup_regroup {used first later left now left' : List CallId}
    (apart : (used ++ ((first ++ later) ++ left)).Nodup)
    (hsub : (now ++ left').Sublist (first ++ left)) :
    ((used ++ now) ++ (later ++ left')).Nodup := by
  have hfirst : ((first ++ later) ++ left).Perm (later ++ (first ++ left)) := by
    rw [List.append_assoc]
    exact List.perm_append_comm_assoc _ _ _
  have hnow : ((used ++ now) ++ (later ++ left')).Perm (used ++ (later ++ (now ++ left'))) := by
    rw [List.append_assoc]
    exact (List.perm_append_comm_assoc _ _ _).append_left used
  have hall := (hfirst.append_left used).nodup_iff.1 apart
  exact hnow.nodup_iff.2 (((hsub.append_left later).append_left used).nodup hall)

theorem exists_standIns (h : History) (call : CallId) (number : ResourceId → CallId)
    {left : Option (List ResourceId)} {l : List (Option Action)}
    (registered : ∃ now, h.service.registry.types.get? typeName = some now)
    (new : (h.actions.filterMap Action.number? ++
      ((l.flatMap fun a => (a.bind Action.number?).toList) ++ (left.getD []).map number)).Nodup) :
    ∃ ass, List.Forall₂ (StandsIn typeName number) l ass ∧
      ((h.actions ++ ass.flatten).filterMap Action.number?).Nodup ∧
      (h.service.interleaved call typeName party left l).SamePermits (h.service.run ass.flatten) ∧
      (h.service.Fits typeName party →
        (∀ x t, some (.submit x (.createType t)) ∈ l → t.name = typeName →
          t.sharingMode = party.mode) →
        (h.service.run ass.flatten).facts.filterMap Fact.done? =
          (h.service.interleaved call typeName party left l).facts.filterMap Fact.done?) := by
  induction l generalizing h left with
  | nil =>
    have hnumbered : ((h.actions ++ []).filterMap Action.number?).Nodup := by
      simpa using h.numbered
    exact ⟨[], .nil, hnumbered, ⟨rfl, fun _ => rfl, fun _ => rfl⟩, fun _ _ => rfl⟩
  | cons a l ih =>
    obtain ⟨as, hstands, hnumbers, hsame, hdone⟩ := h.exists_standIn call number left registered a
    obtain ⟨registered', hfits⟩ :=
      @Service.registered_interrupt h.service call typeName party left a registered
    have hsub : ((h.actions ++ as).filterMap Action.number? ++
        ((l.flatMap fun a => (a.bind Action.number?).toList) ++
          ((h.service.interrupt call typeName party left a).2.getD []).map number)).Nodup := by
      rw [List.flatMap_cons] at new
      rw [List.filterMap_append]
      exact nodup_regroup new hnumbers
    have hservice : (h.goOn as (by
        rw [List.nodup_append] at hsub
        exact hsub.1)).service = (h.service.interrupt call typeName party left a).1.service := by
      rw [← hsame.service]
      exact Service.service_run_append _ _ _
    obtain ⟨ass, hall, hnumbered, hmore, hmoreDone⟩ := @ih (h.goOn as _) _ (by rwa [hservice]) hsub
    rw [hservice] at hmore hmoreDone
    refine ⟨as :: ass, .cons hstands hall, ?_, ?_, ?_⟩
    · rw [List.flatten_cons, ← List.append_assoc]
      exact hnumbered
    · rw [List.flatten_cons, Service.run_append, Service.interleaved]
      refine hsame.andThen ?_
      rw [hsame.service]
      exact hmore
    · intro fits steady
      have hrest := hmoreDone (hfits fits fun x t ha => steady x t (ha ▸ List.mem_cons_self))
        fun x t ht => steady x t (List.mem_cons_of_mem _ ht)
      rw [List.flatten_cons, Service.run_append, Service.interleaved, Turn.facts_andThen,
        List.filterMap_append, hdone fits, hsame.service, hrest]
      exact List.filterMap_append.symm

end History

/-- Left to itself, an unlock of several resources that passes its check is one action. If others
interrupt it, whatever they do, another history comes to the same: the one in which they do the same
and each member is unlocked by a call of its own. There the same permits are granted and returned,
and if nobody puts a type of the other mode in the place of the type, all the rest is told alike. -/
theorem unlock_interrupted (h : History) {typeName : String} {party : Party} {type : ResourceType}
    (resolved : h.service.resolveFor typeName party = .ok type) (call : CallId)
    (number : ResourceId → CallId) (ids : List ResourceId) (l : List (Option Action))
    (new : (h.actions.filterMap Action.number? ++
      ((l.flatMap fun a => (a.bind Action.number?).toList) ++ (distinct ids).map number)).Nodup) :
    h.service.interleaved call typeName party (some (distinct ids))
      (List.replicate ((distinct ids).length + 1) none) =
      h.service.submit call (.unlockMany typeName ids party) ∧
    ∃ (ass : List (List Action)) (h' : History), List.Forall₂ (StandsIn typeName number) l ass ∧
      h'.start = h.start ∧ h'.actions = h.actions ++ ass.flatten ∧
      let t := h.service.interleaved call typeName party (some (distinct ids)) l
      h'.service = t.service ∧
      (∀ key, grantsOn key h'.facts = grantsOn key (h.facts ++ t.facts) ∧
        returnsOn key h'.facts = returnsOn key (h.facts ++ t.facts)) ∧
      ((∀ x u, some (.submit x (.createType u)) ∈ l → u.name = typeName →
        u.sharingMode = party.mode) →
        h'.facts.filterMap Fact.done? = (h.facts ++ t.facts).filterMap Fact.done?) := by
  obtain ⟨registered, mode, -⟩ := Service.resolveFor_ok_iff.1 resolved
  refine ⟨?alone, ?covered⟩
  case alone => simp only [Service.interleaved_alone, Service.submit, Service.unlockAll, resolved]
  case covered =>
    obtain ⟨ass, hall, hnumbered, hsame, hdone⟩ :=
      @History.exists_standIns typeName party h call number (some (distinct ids)) l
        ⟨type, registered⟩ new
    have hfacts : (h.goOn ass.flatten hnumbered).facts =
        h.facts ++ (h.service.run ass.flatten).facts :=
      Service.facts_run_append _ _ _
    refine ⟨ass, h.goOn ass.flatten hnumbered, hall, rfl, rfl, ?_, fun key => ?_, fun steady => ?_⟩
    · rw [← hsame.service]
      exact Service.service_run_append _ _ _
    · rw [hfacts, grantsOn_append, grantsOn_append, returnsOn_append, returnsOn_append,
        hsame.grants, hsame.returns]
      exact ⟨rfl, rfl⟩
    · have fits : h.service.Fits typeName party := fun now hnow => by
        rw [registered, Option.some.injEq] at hnow
        rw [← hnow, mode]
      rw [hfacts, List.filterMap_append, List.filterMap_append, hdone fits steady]

end FairLocks
