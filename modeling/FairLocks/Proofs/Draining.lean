import FairLocks.Proofs.Cascade
import FairLocks.Proofs.Refusals
import FairLocks.Proofs.Sessions
import FairLocks.Proofs.Snapshots

/-!
# No permit is stranded

Whoever is listed as an owner can give a permit back. An unlock is checked against what is
registered when it is made, and then looks for the owner alone, so it does not matter for whom the
permit was taken, nor in which mode, nor what has been registered since. Each such unlock leaves one
permit less, so as many of them as permits are out leave the resource free, and then nobody can give
anything back.
-/
namespace FairLocks

set_option autoImplicit false

/-- The party that stands for one owner in the operations of the mode. -/
def SharingMode.partyOf (mode : SharingMode) (o : OwnerId) : Party :=
  match mode with
  | exclusivePerOwner => .owner o
  | sharedGroup => .group [o]

/-- Unlocks one resource in the name of one owner, by the operation of the mode. -/
def SharingMode.unlock (mode : SharingMode) (key : Key) (o : OwnerId) : Request :=
  .unlock key.1 key.2 (mode.partyOf o)

/-- A session that unlocks one resource, again and again, each time in the name of one owner. -/
def SharingMode.unlocks (mode : SharingMode) (key : Key) (calls : List (CallId × OwnerId)) :
    List (CallId × Command) :=
  calls.map fun c => (c.1, .call (mode.unlock key c.2))

@[simp] theorem SharingMode.mode_partyOf (mode : SharingMode)
    (o : OwnerId) : (mode.partyOf o).mode = mode := by
  cases mode <;> rfl

@[simp] theorem SharingMode.listed_partyOf (mode : SharingMode) (o : OwnerId) :
    (mode.partyOf o).listed = [o] := by
  cases mode <;> rfl

theorem SharingMode.holds_partyOf {mode : SharingMode} {o : OwnerId} {g : Holding} :
    (mode.partyOf o).Holds g ↔ o ∈ g.owners := by
  simp [Party.Holds]

/-- The second slot is the first one without the oldest permit that the party holds. Whoever waits
is awake. -/
def Slot.Returns (slot : Slot) (party : Party) (g : Holding) (slot' : Slot) : Prop :=
  ∃ l r, slot.holdings = l ++ g :: r ∧ (∀ k ∈ l, ¬ party.Holds k) ∧ party.Holds g ∧
    slot' = { slot with holdings := l ++ r, available := slot.available + 1, awake := slot.queue }

theorem Slot.Returns.sound {slot slot' : Slot} {party : Party} {g : Holding}
    (h : slot.Returns party g slot')
    (sound : slot.Sound) : slot'.Sound := by
  obtain ⟨l, r, hlr, -, -, rfl⟩ := h
  exact sound.without hlr

theorem Slot.Returns.key_eq {slot slot' : Slot} {party : Party} {g : Holding}
    (h : slot.Returns party g slot') :
    slot'.key = slot.key := by
  obtain ⟨l, r, -, -, -, rfl⟩ := h
  rfl

/-- The turn returns the oldest permit of the slot that belongs to the owner, wakes whoever waits
for it, changes nothing else, and answers that this was done. -/
def Service.ReturnsOne (s : Service) (call : CallId) (key : Key) (slot : Slot) (mode : SharingMode)
    (o : OwnerId) (t : Turn) : Prop :=
  ∃ l g r, slot.holdings = l ++ g :: r ∧ (∀ k ∈ l, o ∉ k.owners) ∧ o ∈ g.owners ∧
    t = ⟨{ s with
        slots := s.slots.insert key
          { slot with holdings := l ++ r, available := slot.available + 1, awake := slot.queue } },
      ⟨call, .returned key g (mode.partyOf o)⟩ :: s.announce call .unlocked ⟨key.1, key.2, [o]⟩ ++
        [⟨call, .answered (.ok .done)⟩]⟩

/-- The resource is unlocked, again and again, by the operation that fits what is registered at the
time and in the name of an owner that is listed at the time. Whatever happens in between leaves the
slot of the resource as it is, but that callers who were woken and cannot be served go back to
sleep. -/
inductive Drains (key : Key) : Service → List (CallId × OwnerId) → Service → Prop
  | done {s : Service} : Drains key s [] s
  | unlock {s s' : Service} {slot : Slot} {now : ResourceType} {call : CallId} {o : OwnerId}
      {calls : List (CallId × OwnerId)} (found : s.slots.get? key = some slot)
      (registered : s.registry.types.get? key.1 = some now) (listed : o ∈ slot.state.owners)
      (more : Drains key (s.submit call (now.sharingMode.unlock key o)).service calls s') :
      Drains key s ((call, o) :: calls) s'
  | apart {s s' : Service} {a : Action} {calls : List (CallId × OwnerId)}
      (kept : (s.act a).service.slots.get? key = s.slots.get? key)
      (more : Drains key (s.act a).service calls s') : Drains key s calls s'
  | dozes {s s' : Service} {slot : Slot} {ticket : Nat} {a : Action}
      {calls : List (CallId × OwnerId)}
      (found : s.slots.get? key = some slot) (waits : ¬ slot.Serves ticket)
      (kept : (s.act a).service.slots.get? key = some (slot.doze ticket))
      (more : Drains key (s.act a).service calls s') : Drains key s calls s'

/-- Each command of the session names an owner that is still listed when its turn comes. -/
def Service.NamesOwners (s : Service) (key : Key) (mode : SharingMode) :
    List (CallId × OwnerId) → Prop
  | [] => True
  | (call, o) :: calls =>
    (∃ slot, s.slots.get? key = some slot ∧ o ∈ slot.state.owners) ∧
      (s.perform call (.call (mode.unlock key o))).service.NamesOwners key mode calls

namespace Service

variable {s : Service} {call : CallId} {key : Key} {slot : Slot} {now : ResourceType} {o : OwnerId}

/-- An unlock that passes its checks gives back one permit or says why not. -/
theorem submit_unlock {party : Party} {type : ResourceType}
    (resolved : s.resolveFor key.1 party = .ok type) :
    s.submit call (.unlock key.1 key.2 party) =
      match s.giveBack call key party fun g => party.Holds g with
      | .error e => s.answer call (.error e)
      | .ok t => t.andThen fun s => s.answer call (.ok .done) := by
  have hone : distinct [key.2] = [key.2] := rfl
  cases hgiven : s.giveBack call key party fun g => party.Holds g <;>
    simp only [submit, unlockAll, resolved, hone, giveBackAll, hgiven]

/-- If the party holds a permit, the oldest that it holds is given back, and nothing else
changes. -/
theorem giveBack_of_held {party : Party} (found : s.slots.get? key = some slot) (sound : slot.Sound)
    (held : ∃ g ∈ slot.holdings, party.Holds g) :
    ∃ g slot', slot.Returns party g slot' ∧
      ∀ call, s.giveBack call key party (fun g => party.Holds g) =
        .ok ⟨{ s with slots := s.slots.insert key slot' },
          ⟨call, .returned key g party⟩ ::
            s.announce call .unlocked ⟨key.1, key.2, party.listed⟩⟩ := by
  cases hrelease : slot.release? fun g => decide (party.Holds g) with
  | none =>
    obtain ⟨g, hg, hholds⟩ := held
    exact absurd (decide_eq_true hholds) (Slot.release_eq_none hrelease g hg)
  | some released =>
    obtain ⟨g, slot'⟩ := released
    obtain ⟨-, havailable⟩ := sound.release_available hrelease
    refine ⟨g, slot', ?_, fun call => by simp only [giveBack, found, hrelease]⟩
    obtain ⟨l, r, hlr, hl, hg, rfl⟩ := Slot.release_eq hrelease
    simp only at havailable
    exact ⟨l, r, hlr, fun k hk hholds => hl k hk (decide_eq_true hholds), of_decide_eq_true hg,
      by rw [havailable, Slot.release_awake sound.awake_sub]⟩

/-- Then an unlock returns that permit and answers that this was done. -/
theorem submit_unlock_of_held {party : Party} {type : ResourceType}
    (resolved : s.resolveFor key.1 party = .ok type) (found : s.slots.get? key = some slot)
    (sound : slot.Sound) (held : ∃ g ∈ slot.holdings, party.Holds g) :
    ∃ g slot', slot.Returns party g slot' ∧ ∀ call, s.submit call (.unlock key.1 key.2 party) =
      ⟨{ s with slots := s.slots.insert key slot' },
        ⟨call, .returned key g party⟩ :: s.announce call .unlocked ⟨key.1, key.2, party.listed⟩ ++
          [⟨call, .answered (.ok .done)⟩]⟩ := by
  obtain ⟨g, slot', hreturns, hback⟩ := giveBack_of_held found sound held
  refine ⟨g, slot', hreturns, fun call => ?_⟩
  rw [submit_unlock resolved, hback]
  rfl

/-- The unlock that fits what is registered passes its checks. -/
theorem resolveFor_partyOf (registered : s.registry.types.get? key.1 = some now) (o : OwnerId) :
    s.resolveFor key.1 (now.sharingMode.partyOf o) = .ok now := by
  refine resolveFor_ok_iff.2 ⟨registered, (SharingMode.mode_partyOf _ _).symm, ?_⟩
  intro heq
  have hlisted := SharingMode.listed_partyOf now.sharingMode o
  rw [heq] at hlisted
  cases hlisted

theorem submit_unlock_of_listed (call : CallId)
    (registered : s.registry.types.get? key.1 = some now)
    (found : s.slots.get? key = some slot) (sound : slot.Sound) (listed : o ∈ slot.state.owners) :
    s.ReturnsOne call key slot now.sharingMode o
      (s.submit call (now.sharingMode.unlock key o)) := by
  have held : ∃ g ∈ slot.holdings, (now.sharingMode.partyOf o).Holds g := by
    obtain ⟨g, hg, ho⟩ := Slot.mem_state_owners.1 listed
    exact ⟨g, hg, SharingMode.holds_partyOf.2 ho⟩
  obtain ⟨g, slot', ⟨l, r, hlr, hl, hg, rfl⟩, hturn⟩ :=
    submit_unlock_of_held (resolveFor_partyOf registered o) found sound held
  simp only [SharingMode.holds_partyOf] at hl hg
  rw [SharingMode.listed_partyOf] at hturn
  exact ⟨l, g, r, hlr, hl, hg, hturn call⟩

theorem submit_unlock_of_not_listed (call : CallId)
    (registered : s.registry.types.get? key.1 = some now) (found : s.slots.get? key = some slot)
    (keyed : slot.key = key) (unlisted : o ∉ slot.state.owners) :
    s.submit call (now.sharingMode.unlock key o) =
      ⟨s, [⟨call, .answered (.error (.notOwner key [o]))⟩]⟩ := by
  have hback : s.giveBack call key (now.sharingMode.partyOf o)
      (fun g => decide ((now.sharingMode.partyOf o).Holds g)) = .error (.notOwner key [o]) := by
    have hnone : slot.release? (fun g => decide ((now.sharingMode.partyOf o).Holds g)) = none := by
      refine Slot.release_none fun g hg ho => unlisted (Slot.mem_state_owners.2 ⟨g, hg, ?_⟩)
      exact SharingMode.holds_partyOf.1 (of_decide_eq_true ho)
    simp only [giveBack, found, hnone, keyed, SharingMode.listed_partyOf]
  rw [SharingMode.unlock, submit_unlock (resolveFor_partyOf registered o), hback]
  rfl

/-- `left` permits are out on the resource, and everybody who is listed as an owner can give one
back, by the unlock that fits what is registered now. Nobody else can. -/
structure Drainable (s : Service) (key : Key) (slot : Slot) (now : ResourceType)
    (left : Nat) : Prop where
  held : slot.state.held? = some left
  free : slot.state.phase = .free ↔ left = 0
  ownerless : slot.state.owners = [] ↔ left = 0
  returns : ∀ o ∈ slot.state.owners, ∀ call,
    s.ReturnsOne call key slot now.sharingMode o (s.submit call (now.sharingMode.unlock key o))
  refuses : ∀ o, o ∉ slot.state.owners → ∀ call, s.submit call (now.sharingMode.unlock key o) =
    ⟨s, [⟨call, .answered (.error (.notOwner key [o]))⟩]⟩

theorem drainable (registered : s.registry.types.get? key.1 = some now)
    (found : s.slots.get? key = some slot) (keyed : slot.key = key) (sound : slot.Sound)
    (owned : ∀ g ∈ slot.holdings, ∃ o, o ∈ g.owners) :
    s.Drainable key slot now slot.holdings.length where
  held := sound.held?_eq
  free := by
    rw [SlotState.phase_eq_free_iff, List.length_eq_zero_iff, sound.holdings_eq_nil_iff]
    rfl
  ownerless := by rw [Slot.state_owners_eq_nil owned, List.length_eq_zero_iff]
  returns := fun _ listed call => submit_unlock_of_listed call registered found sound listed
  refuses := fun _ unlisted call => submit_unlock_of_not_listed call registered found keyed unlisted

/-- A name that stands for a type goes on to stand for one. -/
theorem exists_registered_act {name : String}
    (registered : ∃ t, s.registry.types.get? name = some t)
    (a : Action) : ∃ t, (s.act a).service.registry.types.get? name = some t := by
  obtain ⟨t, ht⟩ := registered
  rcases registry_act s a with ⟨hsame, -⟩ | ⟨call, type, -, -, hact⟩
  · exact ⟨t, by rw [hsame, ht]⟩
  · rw [hact]
    by_cases hname : type.name = name
    · subst hname
      exact ⟨type, Dict.get?_insert_self _ _ _⟩
    · exact ⟨t, (Dict.get?_insert_of_ne _ _ hname).trans ht⟩

end Service

/-- A drain takes one permit after another, and every permit that is left still belongs to
somebody. -/
theorem Drains.leaves {key : Key} {s s' : Service} {calls : List (CallId × OwnerId)} {slot : Slot}
    (h : Drains key s calls s') (found : s.slots.get? key = some slot) (keyed : slot.key = key)
    (sound : slot.Sound) (owned : ∀ g ∈ slot.holdings, ∃ o, o ∈ g.owners)
    (registered : ∃ now, s.registry.types.get? key.1 = some now) :
    ∃ slot' now, s'.slots.get? key = some slot' ∧ s'.registry.types.get? key.1 = some now ∧
      slot'.holdings.length + calls.length = slot.holdings.length ∧
      s'.Drainable key slot' now slot'.holdings.length := by
  induction h generalizing slot with
  | done =>
    obtain ⟨now, hnow⟩ := registered
    exact ⟨slot, now, found, hnow, rfl, Service.drainable hnow found keyed sound owned⟩
  | @unlock s s' slot₀ now call o calls found₀ registered₀ listed more ih =>
    cases found.symm.trans found₀
    obtain ⟨l, g, r, hlr, -, -, hturn⟩ :=
      Service.submit_unlock_of_listed call registered₀ found sound listed
    rw [hturn] at ih
    have hsub : (l ++ r).Sublist slot₀.holdings := by
      rw [hlr]
      exact (List.sublist_cons_self g r).append_left l
    obtain ⟨slot', now', found', hnow', hlength, hdrainable⟩ := ih (Dict.get?_insert_self _ _ _)
      keyed (sound.without hlr) (fun k hk => owned k (hsub.subset hk)) ⟨now, registered₀⟩
    refine ⟨slot', now', found', hnow', ?_, hdrainable⟩
    rw [hlr]
    simp only [List.length_append, List.length_cons] at hlength ⊢
    omega
  | @apart s s' a calls kept more ih =>
    exact ih (kept.trans found) keyed sound owned (Service.exists_registered_act registered a)
  | @dozes s s' slot₀ ticket a calls found₀ waits kept more ih =>
    cases found.symm.trans found₀
    have hmore := ih kept keyed (sound.doze waits) owned
      (Service.exists_registered_act registered a)
    exact hmore

namespace Service

variable {s : Service} {key : Key} {slot : Slot} {now : ResourceType}

/-- Where nobody has a move and nobody waits for the resource, an unlock gives nobody a move, so the
command is over with it. -/
theorem perform_unlock {call : CallId} {o : OwnerId} (settled : s.Settled)
    (unawaited : ∀ x ticket, s.waits? x ≠ some (key, ticket)) (idle : s.callers.get? call = none)
    (registered : s.registry.types.get? key.1 = some now) (found : s.slots.get? key = some slot)
    (keyed : slot.key = key) (sound : slot.Sound) :
    s.perform call (.call (now.sharingMode.unlock key o)) =
      s.submit call (now.sharingMode.unlock key o) ∧
    ∃ slot', (s.submit call (now.sharingMode.unlock key o)).service =
        { s with slots := s.slots.insert key slot' } ∧ slot'.key = key ∧ slot'.Sound ∧
      { s with slots := s.slots.insert key slot' }.Settled := by
  have hslot : ∃ slot', (s.submit call (now.sharingMode.unlock key o)).service =
      { s with slots := s.slots.insert key slot' } ∧ slot'.key = key ∧ slot'.Sound := by
    by_cases listed : o ∈ slot.state.owners
    · obtain ⟨l, g, r, hlr, -, -, hturn⟩ :=
        submit_unlock_of_listed call registered found sound listed
      refine ⟨_, congrArg Turn.service hturn, ?_, sound.without hlr⟩
      exact keyed
    · refine ⟨slot, ?_, keyed, sound⟩
      rw [submit_unlock_of_not_listed call registered found keyed listed, Dict.insert_same found]
  obtain ⟨slot', hservice, keyed', sound'⟩ := hslot
  have settled' : { s with slots := s.slots.insert key slot' }.Settled := by
    refine settled.congr rfl rfl fun x k ticket hwaits => Dict.get?_insert_of_ne _ _ ?_
    rintro rfl
    exact unawaited x ticket hwaits
  refine ⟨?_, slot', hservice, keyed', sound', settled'⟩
  have hstill : (s.submit call (now.sharingMode.unlock key o)).service.move call = none :=
    move_of_idle (by rw [hservice]; exact idle)
  have hrest : (s.submit call (now.sharingMode.unlock key o)).service.Settled := by
    rw [hservice]
    exact settled'
  simp only [perform, start, Turn.andThen, drive_of_still hstill, rest, settle_of_settled hrest,
    List.append_nil]

/-- Unlocks that a session makes where nobody waits are all that happens in it. -/
theorem session_unlocks {calls : List (CallId × OwnerId)} (settled : s.Settled)
    (unawaited : ∀ x ticket, s.waits? x ≠ some (key, ticket))
    (idle : ∀ c ∈ calls, s.callers.get? c.1 = none)
    (registered : s.registry.types.get? key.1 = some now)
    (found : s.slots.get? key = some slot) (keyed : slot.key = key) (sound : slot.Sound) :
    s.session (now.sharingMode.unlocks key calls) =
        s.turns (calls.map fun c => [.submit c.1 (now.sharingMode.unlock key c.2)]) ∧
      (s.NamesOwners key now.sharingMode calls →
        Drains key s calls (s.afterSession (now.sharingMode.unlocks key calls))) := by
  induction calls generalizing s slot with
  | nil => exact ⟨rfl, fun _ => .done⟩
  | cons c calls ih =>
    obtain ⟨hidle, hidleMore⟩ := List.forall_mem_cons.1 idle
    obtain ⟨hperform, slot', hservice, keyed', sound', settled'⟩ :=
      perform_unlock (o := c.2) settled unawaited hidle registered found keyed sound
    obtain ⟨hmore, hdrain⟩ :=
      ih (s := { s with slots := s.slots.insert key slot' }) settled' unawaited
      hidleMore registered (Dict.get?_insert_self _ _ _) keyed' sound'
    rw [← hservice] at hmore hdrain
    constructor
    · change s.perform c.1 _ :: (s.perform c.1 _).service.session _ =
        s.run [.submit c.1 _] :: (s.run [.submit c.1 _]).service.turns _
      rw [run_singleton, hperform]
      exact congrArg _ hmore
    · rintro ⟨⟨slot₀, found₀, listed⟩, hnames⟩
      rw [hperform] at hnames
      refine .unlock found₀ registered listed ?_
      change Drains key _ calls ((s.perform c.1 _).service.afterSession _)
      rw [hperform]
      exact hdrain hnames

end Service

/-- At every moment of a history, and after every drain from there, whoever is listed as an owner of
a resource can give back one permit of its own by the unlock that fits what is registered, and
nobody else can; as many such unlocks as permits are out leave the resource free. Where nobody has a
move and nobody waits for the resource, a session of unlocks is nothing but the unlocks, so it
drains the resource. -/
theorem no_permit_stranded (h : History) {key : Key} {slot : Slot}
    (hslot : h.service.slots.get? key = some slot) :
    ∃ held, slot.state.held? = some held ∧
      (∀ calls s, Drains key h.service calls s →
        ∃ slot' now left, left + calls.length = held ∧ s.slots.get? key = some slot' ∧
          s.registry.types.get? key.1 = some now ∧ s.Drainable key slot' now left) ∧
      ∃ now, h.registered? key.1 = some now ∧
        (h.service.Settled → slot.queue = [] → ∀ calls : List (CallId × OwnerId),
          (∀ c ∈ calls, h.service.callers.get? c.1 = none) →
          h.service.session (now.sharingMode.unlocks key calls) =
              h.service.turns (calls.map fun c => [.submit c.1 (now.sharingMode.unlock key c.2)]) ∧
            (h.service.NamesOwners key now.sharingMode calls →
              Drains key h.service calls
                (h.service.afterSession (now.sharingMode.unlocks key calls)))) := by
  have sound := h.orderly.ledger.sound key slot hslot
  have keyed := h.orderly.ledger.keyed key slot hslot
  obtain ⟨now, hnow⟩ := h.registered_of_slot hslot
  have registered : h.service.registry.types.get? key.1 = some now := by
    rw [← h.registered?_eq, hnow]
  refine ⟨slot.holdings.length, sound.held?_eq, fun calls s hdrains => ?_, now, hnow, ?_⟩
  · obtain ⟨slot', now', found', hnow', hlength, hdrainable⟩ :=
      hdrains.leaves hslot keyed sound (fun g hg => History.exists_owner hslot hg) ⟨now, registered⟩
    exact ⟨slot', now', _, hlength, found', hnow', hdrainable⟩
  · intro settled hqueue calls idle
    refine Service.session_unlocks settled (fun x ticket hwaits => ?_) idle registered
      hslot keyed sound
    obtain ⟨slot', found, hticket⟩ := h.orderly.exists_slot_of_waits hwaits
    cases hslot.symm.trans found
    rw [hqueue] at hticket
    exact List.not_mem_nil hticket

/-- Two groups hold a document when documents become such as one owner may hold, with one permit. -/
def regrouped : History where
  start := .withType ⟨"doc", 2, .sharedGroup⟩
  actions := [.submit 1 (.lock "doc" 1 (.group [9, 7])), .move 1, .move 1,
    .submit 2 (.lock "doc" 1 (.group [9, 3])), .move 2, .move 2,
    .submit 3 (.createType ⟨"doc", 1, .exclusivePerOwner⟩)]
  isNew := Service.new_groupDoc
  numbered := by decide

/-- The owner that both groups have in common gives back both permits, by the unlock for single
owners. -/
theorem no_permit_stranded_regrouped :
    ∃ s slot, s = regrouped.service.afterSession
      (SharingMode.exclusivePerOwner.unlocks ("doc", 1) [(4, 9), (5, 9)]) ∧
      s.slots.get? ("doc", 1) = some slot ∧ slot.state.phase = .free ∧
      slot.state.owners = [] ∧
      s.submit 6 (.unlock "doc" 1 (.owner 9)) =
        ⟨s, [⟨6, .answered (.error (.notOwner ("doc", 1) [9]))⟩]⟩ := by
  obtain ⟨held, hheld, hdrains, now, hnow, hsession⟩ := @no_permit_stranded regrouped ("doc", 1)
    ⟨("doc", 1), 2, .sharedGroup, 0, [⟨0, OwnerSet.ofList [9, 7], 1⟩,
      ⟨1, OwnerSet.ofList [9, 3], 2⟩], 2, [], 2, []⟩ rfl
  obtain rfl : 2 = held := Option.some.inj hheld
  obtain rfl : ⟨"doc", 1, .exclusivePerOwner⟩ = now := Option.some.inj hnow
  have settled : regrouped.service.Settled := Service.firstMove_eq_none_iff.1 rfl
  have hnames : regrouped.service.NamesOwners ("doc", 1) .exclusivePerOwner [(4, 9), (5, 9)] :=
    ⟨⟨_, rfl, by decide⟩, ⟨_, rfl, by decide⟩, trivial⟩
  obtain ⟨-, hdrain⟩ := hsession settled rfl [(4, 9), (5, 9)] (by decide)
  obtain ⟨slot, now, left, hleft, hslot, hnow, hdrainable⟩ := hdrains _ _ (hdrain hnames)
  obtain rfl : ⟨"doc", 1, .exclusivePerOwner⟩ = now := Option.some.inj hnow
  have hnone : left = 0 := by
    simp only [List.length_cons, List.length_nil] at hleft
    omega
  have hfree := hdrainable.ownerless.2 hnone
  refine ⟨_, slot, rfl, hslot, hdrainable.free.2 hnone, hfree, hdrainable.refuses 9 ?_ 6⟩
  rw [hfree]
  exact List.not_mem_nil

end FairLocks
