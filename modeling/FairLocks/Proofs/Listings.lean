import FairLocks.Proofs.Announcements
import FairLocks.Proofs.NormalForms
import FairLocks.Proofs.Snapshots
import FairLocks.Proofs.Tickets

/-!
# Owner lists are sets, id lists are sequences without repetitions

Two sessions that list the same owners in another order or more than once, and mention the same ids
for the first time in the same order, have the same normal form. So they go the same way: whoever
parks parks at the same point, permits are granted in the same order, and the slots are equal after
each step. What differs is how owners are listed where they are echoed.
-/
namespace FairLocks

set_option autoImplicit false

/-- The lists name the same owners. -/
def SameOwners (os os' : List OwnerId) : Prop := ∀ o, o ∈ os ↔ o ∈ os'

/-- The lists mention the same ids, for the first time in the same order. -/
structure SameMentions (ids ids' : List ResourceId) : Prop where
  mem : ∀ id, id ∈ ids ↔ id ∈ ids'
  order : ∀ a ∈ ids, ∀ b ∈ ids, ids.idxOf a < ids.idxOf b ↔ ids'.idxOf a < ids'.idxOf b

/-- The same party, be it that a group is listed in another way. -/
inductive Party.Alike : Party → Party → Prop
  | owner (o : OwnerId) : Alike (.owner o) (.owner o)
  | group {os os' : List OwnerId} (same : SameOwners os os') : Alike (.group os) (.group os')

/-- The same request, be it that owners and ids are listed in another way. -/
inductive Request.Alike : Request → Request → Prop
  | same (request : Request) : Alike request request
  | lock (typeName : String) (id : ResourceId) {party party' : Party} (h : party.Alike party') :
      Alike (.lock typeName id party) (.lock typeName id party')
  | lockMany (typeName : String) {ids ids' : List ResourceId} (hids : SameMentions ids ids')
      {party party' : Party} (h : party.Alike party') :
      Alike (.lockMany typeName ids party) (.lockMany typeName ids' party')
  | unlock (typeName : String) (id : ResourceId) {party party' : Party} (h : party.Alike party') :
      Alike (.unlock typeName id party) (.unlock typeName id party')
  | unlockMany (typeName : String) {ids ids' : List ResourceId} (hids : SameMentions ids ids')
      {party party' : Party} (h : party.Alike party') :
      Alike (.unlockMany typeName ids party) (.unlockMany typeName ids' party')
  | tryLock (typeName : String) (id : ResourceId) {party party' : Party} (h : party.Alike party')
      (timeout : Nat) : Alike (.tryLock typeName id party timeout)
      (.tryLock typeName id party' timeout)
  | tryLockMany (typeName : String) {ids ids' : List ResourceId} (hids : SameMentions ids ids')
      {party party' : Party} (h : party.Alike party') (timeout : Nat) :
      Alike (.tryLockMany typeName ids party timeout) (.tryLockMany typeName ids' party' timeout)
  | tryLockManyDetailed (typeName : String) {ids ids' : List ResourceId}
      (hids : SameMentions ids ids')
      {party party' : Party} (h : party.Alike party') (timeout : Nat) :
      Alike (.tryLockManyDetailed typeName ids party timeout)
        (.tryLockManyDetailed typeName ids' party' timeout)

/-- The same numbers of calls, with requests that are alike. -/
def RequestsAlike : List (CallId × Request) → List (CallId × Request) → Prop :=
  List.Forall₂ fun r r' => r.1 = r'.1 ∧ r.2.Alike r'.2

inductive Action.Alike : Action → Action → Prop
  | submit (call : CallId) {request request' : Request} (h : request.Alike request') :
      Alike (.submit call request) (.submit call request')
  | move (call : CallId) : Alike (.move call) (.move call)
  | pass (d : Nat) : Alike (.pass d) (.pass d)

inductive Command.Alike : Command → Command → Prop
  | call {request request' : Request} (h : request.Alike request') :
      Alike (.call request) (.call request')
  | await {request request' : Request} (h : request.Alike request') :
      Alike (.await request) (.await request')
  | burst {requests requests' : List (CallId × Request)} (h : RequestsAlike requests requests') :
      Alike (.burst requests) (.burst requests')
  | sleep (duration : Nat) : Alike (.sleep duration) (.sleep duration)
  | join (call : CallId) : Alike (.join call) (.join call)

/-- The same reply, be it that the owners of whom none holds a permit are listed in another way. -/
inductive Reply.Alike : Reply → Reply → Prop
  | same (reply : Reply) : Alike reply reply
  | notOwner (key : Key) {os os' : List OwnerId} (same : SameOwners os os') :
      Alike (.error (.notOwner key os)) (.error (.notOwner key os'))

/-- The same event, be it that its owners are listed in another way. -/
structure LockEvent.Alike (e e' : LockEvent) : Prop where
  typeName : e.typeName = e'.typeName
  resourceId : e.resourceId = e'.resourceId
  owners : SameOwners e.owners e'.owners

/-- The same happens, but for the way in which owners are listed where they are echoed. -/
structure Turn.Alike (t t' : Turn) : Prop where
  slots : t.service.slots = t'.service.slots
  states : ∀ key, t.service.slotState key = t'.service.slotState key
  atWork : t.service.callers.keys = t'.service.callers.keys
  parks : ∀ call, t.service.waits? call = t'.service.waits? call
  deadlines : ∀ call, (t.service.callers.get? call).bind Caller.deadline? =
    (t'.service.callers.get? call).bind Caller.deadline?
  arrives : ∀ key, arrivals key t.facts = arrivals key t'.facts
  served : ∀ key, grantsOn key t.facts = grantsOn key t'.facts
  results : List.Forall₂ (fun x x' => x.1 = x'.1 ∧ Reply.Alike x.2 x'.2)
    (t.facts.filterMap Fact.reply?) (t'.facts.filterMap Fact.reply?)
  events : ∀ listener, List.Forall₂ (fun x x' => x.1 = x'.1 ∧ x.2.1 = x'.2.1 ∧ x.2.2.Alike x'.2.2)
    (heard listener t.facts) (heard listener t'.facts)
  /-- With the owners listed in order, all of it is the same. -/
  normal : t.normal = t'.normal

section

variable {os os' : List OwnerId} {ids ids' : List ResourceId}

theorem SameOwners.ordered_eq (h : SameOwners os os') : ordered os = ordered os' := by
  refine congrArg OwnerSet.toList (OwnerSet.ext fun o => ?_)
  rw [OwnerSet.mem_ofList, OwnerSet.mem_ofList, h o]

theorem SameOwners.of_ordered (h : ordered os = ordered os') : SameOwners os os' := by
  intro o
  rw [← mem_ordered, h, mem_ordered]

/-- Without its repetitions a list is in the order of its first mentions. -/
theorem pairwise_distinct (ids : List ResourceId) :
    (distinct ids).Pairwise fun a b => ids.idxOf a < ids.idxOf b := by
  have hgo (seen : List ResourceId) : (distinct.go seen ids).Pairwise fun a b =>
      ids.idxOf a < ids.idxOf b := by
    induction ids generalizing seen with
    | nil => exact .nil
    | cons id ids ih =>
      -- an id that was seen before, or is seen now, is found behind the head if at all
      have hlater {seen : List ResourceId} (hid : id ∈ seen) :
          (distinct.go seen ids).Pairwise fun a b => (id :: ids).idxOf a < (id :: ids).idxOf b := by
        refine (ih seen).imp_of_mem fun {a b} ha hb hlt => ?_
        have hne {x : ResourceId} (hx : x ∈ distinct.go seen ids) : id ≠ x := by
          rintro rfl
          exact (mem_distinct_go.1 hx).2 hid
        rw [List.idxOf_cons_ne _ (hne ha), List.idxOf_cons_ne _ (hne hb)]
        omega
      unfold distinct.go
      split
      · rename_i hid
        exact hlater hid
      · refine List.pairwise_cons.2 ⟨fun x hx => ?_, hlater List.mem_cons_self⟩
        have hne : id ≠ x := by
          rintro rfl
          exact (mem_distinct_go.1 hx).2 List.mem_cons_self
        rw [List.idxOf_cons_self, List.idxOf_cons_ne _ hne]
        omega
  exact hgo []

theorem SameMentions.distinct_eq (h : SameMentions ids ids') : distinct ids = distinct ids' := by
  have hperm : (distinct ids).Perm (distinct ids') := by
    refine (List.perm_ext_iff_of_nodup (nodup_distinct ids) (nodup_distinct ids')).2 fun id => ?_
    rw [mem_distinct, mem_distinct, h.mem id]
  have hordered : (distinct ids').Pairwise fun a b => ids.idxOf a < ids.idxOf b := by
    refine (pairwise_distinct ids').imp_of_mem fun {a b} ha hb hlt => ?_
    exact (h.order a ((h.mem a).2 (mem_distinct.1 ha)) b ((h.mem b).2 (mem_distinct.1 hb))).2 hlt
  refine hperm.eq_of_pairwise (fun a b _ _ hab hba => ?_) (pairwise_distinct ids) hordered
  omega

end

theorem Party.Alike.normal_eq {party party' : Party} (h : party.Alike party') :
    party.normal = party'.normal := by
  cases h with
  | owner => rfl
  | group same => exact congrArg Party.group same.ordered_eq

theorem Request.Alike.normal_eq {request request' : Request} (h : request.Alike request') :
    request.normal = request'.normal := by
  cases h with
  | same => rfl
  | lock _ _ h | unlock _ _ h | tryLock _ _ h => simp only [Request.normal, h.normal_eq]
  | lockMany _ hids h | unlockMany _ hids h | tryLockMany _ hids h | tryLockManyDetailed _ hids h =>
    simp only [Request.normal, hids.distinct_eq, h.normal_eq]

/-- Lists whose members are alike one by one have the same normal forms. -/
theorem map_eq_of_forall₂ {α β : Type} {R : α → α → Prop} {f : α → β}
    (hR : ∀ a a', R a a' → f a = f a')
    {l l' : List α} (h : List.Forall₂ R l l') : l.map f = l'.map f := by
  rw [← List.forall₂_eq_eq_eq, List.forall₂_map_left_iff, List.forall₂_map_right_iff]
  exact h.imp hR

theorem forall₂_of_map_eq {α β : Type} {R : α → α → Prop} {f : α → β}
    (hR : ∀ a a', f a = f a' → R a a')
    {l l' : List α} (h : l.map f = l'.map f) : List.Forall₂ R l l' := by
  rw [← List.forall₂_eq_eq_eq, List.forall₂_map_left_iff, List.forall₂_map_right_iff] at h
  exact h.imp hR

theorem RequestsAlike.normal_eq {requests requests' : List (CallId × Request)}
    (h : RequestsAlike requests requests') :
    requests.map (fun r => (r.1, r.2.normal)) = requests'.map fun r => (r.1, r.2.normal) :=
  map_eq_of_forall₂ (fun _ _ hr => Prod.ext hr.1 hr.2.normal_eq) h

theorem Action.Alike.normal_eq {a a' : Action} (h : a.Alike a') : a.normal = a'.normal := by
  cases h with
  | submit call h => exact congrArg (Action.submit call) h.normal_eq
  | move | pass => rfl

theorem Command.Alike.normal_eq {command command' : Command} (h : command.Alike command') :
    command.normal = command'.normal := by
  cases h with
  | call h => exact congrArg Command.call h.normal_eq
  | await h => exact congrArg Command.await h.normal_eq
  | burst h => exact congrArg Command.burst h.normal_eq
  | sleep | join => rfl

/-- An error is in normal form, or says that none of the owners holds a permit. -/
theorem LockError.normal_eq_self_or (e : LockError) :
    e.normal = e ∨ ∃ key os, e = .notOwner key os := by
  cases e with
  | notOwner key os => exact .inr ⟨key, os, rfl⟩
  | unknownType | neverLocked | modeMismatch | invalidCapacity | noOwners | poisoned
  | config => exact .inl rfl

theorem Reply.Alike.of_normal {reply reply' : Reply}
    (h : Reply.normal reply = Reply.normal reply') :
    Reply.Alike reply reply' := by
  have hsame (os : List OwnerId) : SameOwners (ordered os) os := fun _ => mem_ordered
  cases reply with
  | ok answer =>
    cases reply' with
    | ok answer' =>
      cases h
      exact .same _
    | error e' => cases h
  | error e =>
    cases reply' with
    | ok answer' => cases h
    | error e' =>
      have he : e.normal = e'.normal := Except.error.inj h
      rcases e.normal_eq_self_or with hself | ⟨key, os, rfl⟩
      · rcases e'.normal_eq_self_or with hself' | ⟨key', os', rfl⟩
        · rw [hself, hself'] at he
          cases he
          exact .same _
        · rw [hself] at he
          cases he
          exact .notOwner key' (hsame os')
      · rcases e'.normal_eq_self_or with hself' | ⟨key', os', rfl⟩
        · rw [hself'] at he
          cases he
          exact .notOwner key fun o => (hsame os o).symm
        · obtain ⟨rfl, howners⟩ := LockError.notOwner.inj he
          exact .notOwner key (SameOwners.of_ordered howners)

theorem LockEvent.Alike.of_normal {e e' : LockEvent} (h : e.normal = e'.normal) : e.Alike e' := by
  obtain ⟨htype, hid, howners⟩ := LockEvent.mk.inj h
  exact ⟨htype, hid, .of_ordered howners⟩

section

variable (fs : List Fact)

theorem arrivals_normal (key : Key) : arrivals key (fs.map Fact.normal) = arrivals key fs := by
  rw [arrivals, List.filterMap_map]
  refine List.filterMap_congr fun f _ => ?_
  obtain ⟨call, deed⟩ := f
  cases deed <;> rfl

theorem grantsOn_normal (key : Key) : grantsOn key (fs.map Fact.normal) = grantsOn key fs := by
  rw [grantsOn, List.filterMap_map]
  refine List.filterMap_congr fun f _ => ?_
  obtain ⟨call, deed⟩ := f
  cases deed <;> rfl

theorem replies_normal : (fs.map Fact.normal).filterMap Fact.reply? =
    (fs.filterMap Fact.reply?).map fun x => (x.1, Reply.normal x.2) := by
  rw [List.filterMap_map, List.map_filterMap]
  refine List.filterMap_congr fun f _ => ?_
  obtain ⟨call, deed⟩ := f
  cases deed <;> rfl

theorem heard_normal (listener : CallId) : heard listener (fs.map Fact.normal) =
    (heard listener fs).map fun x => (x.1, x.2.1, x.2.2.normal) := by
  rw [heard, heard, List.filterMap_map, List.map_filterMap]
  refine List.filterMap_congr fun f _ => ?_
  obtain ⟨call, deed⟩ := f
  cases deed with
  | announced l kind event =>
    simp only [Function.comp_apply, Fact.normal, Deed.normal, Fact.heard?]
    split <;> rfl
  | registered | opened | queued | granted | gaveUp | returned | notReturned | rolledBack | evicted
  | answered => rfl

end

/-- Turns with the same normal form differ only in how owners are listed where they are echoed. -/
theorem Turn.Alike.of_normal {t t' : Turn} (h : t.normal = t'.normal) : t.Alike t' := by
  have hservice : t.service.normal = t'.service.normal := congrArg Turn.service h
  have hfacts : t.facts.map Fact.normal = t'.facts.map Fact.normal := congrArg Turn.facts h
  have hcaller {β : Type} {g : Caller → Option β} (hg : ∀ c, g c.normal = g c) (call : CallId) :
      (t.service.callers.get? call).bind g = (t'.service.callers.get? call).bind g := by
    rw [← Service.bind_callers_normal hg, hservice, Service.bind_callers_normal hg]
  have hslots : t.service.normal.slots = t'.service.normal.slots := by rw [hservice]
  have hstates (key : Key) : t.service.normal.slotState key = t'.service.normal.slotState key := by
    rw [hservice]
  refine
    { slots := hslots
      states := hstates
      atWork := ?_
      parks := hcaller Caller.waits?_normal
      deadlines := hcaller Caller.deadline?_normal
      arrives := fun key => ?_
      served := fun key => ?_
      results := forall₂_of_map_eq (f := fun x => (x.1, Reply.normal x.2)) ?_ ?_
      events := fun listener => forall₂_of_map_eq (f := fun x => (x.1, x.2.1, x.2.2.normal)) ?_ ?_
      normal := h }
  · have hkeys := congrArg (fun s : Service => s.callers.keys) hservice
    simpa only [Service.normal, Dict.keys_map] using hkeys
  · rw [← arrivals_normal, hfacts, arrivals_normal]
  · rw [← grantsOn_normal, hfacts, grantsOn_normal]
  · intro x x' hx
    obtain ⟨hcall, hreply⟩ := Prod.mk.inj hx
    exact ⟨hcall, .of_normal hreply⟩
  · rw [← replies_normal, hfacts, replies_normal]
  · intro x x' hx
    obtain ⟨hcall, hrest⟩ := Prod.mk.inj hx
    obtain ⟨hkind, hevent⟩ := Prod.mk.inj hrest
    exact ⟨hcall, hkind, .of_normal hevent⟩
  · rw [← heard_normal, hfacts, heard_normal]

/-- Sessions whose requests list the same owners, and mention the same ids in the same order, go the
same way command by command, and so do runs action by action, in whatever order the calls move.
Where the second lists owners in another way, this shows in nothing but the lists that are
echoed. -/
theorem listings_irrelevant (s : Service) :
    (∀ l l', List.Forall₂ (fun x x' => x.1 = x'.1 ∧ x.2.Alike x'.2) l l' →
      List.Forall₂ Turn.Alike (s.session l) (s.session l')) ∧
    ∀ as as', List.Forall₂ Action.Alike as as' →
      List.Forall₂ Turn.Alike (s.turns (as.map fun a => [a])) (s.turns (as'.map fun a => [a])) := by
  refine ⟨fun l l' hl => ?_, fun as as' has => ?_⟩
  · have hcommands : l.map (fun x => (x.1, x.2.normal)) = l'.map fun x => (x.1, x.2.normal) :=
      map_eq_of_forall₂ (fun _ _ hx => Prod.ext hx.1 hx.2.normal_eq) hl
    refine forall₂_of_map_eq (f := Turn.normal) (fun _ _ => .of_normal) ?_
    rw [s.session_normal, hcommands, s.session_normal]
  · have hactions : (as.map fun a => [a]).map (List.map Action.normal) =
        (as'.map fun a => [a]).map (List.map Action.normal) := by
      rw [List.map_map, List.map_map]
      exact map_eq_of_forall₂ (fun _ _ ha => congrArg (fun a => [a]) ha.normal_eq) has
    refine forall₂_of_map_eq (f := Turn.normal) (fun _ _ => .of_normal) ?_
    rw [s.turns_normal, hactions, s.turns_normal]

/-- A group locks two documents while somebody listens; another group waits for the first of them.
Somebody asks for the second one back in vain, then the first group gives back the first. -/
def plainListing : List (CallId × Command) :=
  [(1, .call (.listen "ResourceLocked")), (2, .await (.lockMany "doc" [2, 1] (.group [3, 5]))),
    (3, .call (.lock "doc" 1 (.group [7, 8]))), (4, .call (.unlock "doc" 2 (.group [4, 9]))),
    (5, .call (.unlockMany "doc" [1] (.group [3, 5])))]

/-- The same with every list in another way. -/
def otherListing : List (CallId × Command) :=
  [(1, .call (.listen "ResourceLocked")),
    (2, .await (.lockMany "doc" [2, 2, 1, 2] (.group [5, 3, 5]))),
    (3, .call (.lock "doc" 1 (.group [8, 7, 7]))), (4, .call (.unlock "doc" 2 (.group [9, 4, 9]))),
    (5, .call (.unlockMany "doc" [1, 1, 1] (.group [5, 3])))]

/-- On documents with one permit each, both sessions go the same way. -/
theorem listings_irrelevant_otherListing :
    ∃ s ts ts', s = Service.withType ⟨"doc", 1, .sharedGroup⟩ ∧ ts = s.session plainListing ∧
      ts' = s.session otherListing ∧ List.Forall₂ Turn.Alike ts ts' ∧
      (ts.flatMap Turn.facts).filterMap Fact.reply? = [(1, .ok (.listener 1)), (2, .ok .done),
        (4, .error (.notOwner ("doc", 2) [4, 9])), (5, .ok .done), (3, .ok .done)] ∧
      (ts'.flatMap Turn.facts).filterMap Fact.reply? = [(1, .ok (.listener 1)), (2, .ok .done),
        (4, .error (.notOwner ("doc", 2) [9, 4, 9])), (5, .ok .done), (3, .ok .done)] ∧
      heard 1 (ts.flatMap Turn.facts) =
        [(2, .locked, ⟨"doc", 2, [3, 5]⟩), (2, .locked, ⟨"doc", 1, [3, 5]⟩),
          (3, .locked, ⟨"doc", 1, [7, 8]⟩)] ∧
      heard 1 (ts'.flatMap Turn.facts) =
        [(2, .locked, ⟨"doc", 2, [5, 3, 5]⟩), (2, .locked, ⟨"doc", 1, [5, 3, 5]⟩),
          (3, .locked, ⟨"doc", 1, [8, 7, 7]⟩)] := by
  have twoDocs : SameMentions [2, 1] [2, 2, 1, 2] := ⟨fun id => by simp; tauto, by decide⟩
  have oneDoc : SameMentions [1] [1, 1, 1] := ⟨fun id => by simp, by decide⟩
  have hlisted : List.Forall₂ (fun x x' => x.1 = x'.1 ∧ x.2.Alike x'.2) plainListing otherListing :=
    .cons ⟨rfl, .call (.same _)⟩
      (.cons ⟨rfl, .await (.lockMany "doc" twoDocs (.group fun o => by simp; tauto))⟩
        (.cons ⟨rfl, .call (.lock "doc" 1 (.group fun o => by simp; tauto))⟩
          (.cons ⟨rfl, .call (.unlock "doc" 2 (.group fun o => by simp; tauto))⟩
            (.cons ⟨rfl, .call (.unlockMany "doc" oneDoc (.group fun o => by simp; tauto))⟩ .nil))))
  exact ⟨_, _, _, rfl, rfl, rfl, (listings_irrelevant _).1 _ _ hlisted, rfl, rfl, rfl, rfl⟩

end FairLocks
