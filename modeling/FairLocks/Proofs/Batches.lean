import FairLocks.Proofs.Draining
import FairLocks.Proofs.LockUnlock

/-!
# A call for several resources is a row of calls for one

To unlock several resources is to unlock each of them in turn, until one cannot be given back: the
same permits come back, the error is that of this one, and neither it nor what comes after it is
touched. To lock several resources of which none has to be waited for is to lock each of them in
turn. What is left differs in nothing that an operation looks at, and the listeners are told the
same.
-/
namespace FairLocks

set_option autoImplicit false

namespace Dict

variable {κ α β : Type} [DecidableEq κ] (d : Dict κ α) {key : β → κ} {value : β → α}

theorem insertAll_congr {value' : β → α} {l : List β} (h : ∀ b ∈ l, value b = value' b) :
    d.insertAll key value l = d.insertAll key value' l :=
  List.foldl_ext _ _ _ fun d b hb => by rw [h b hb]

theorem map_insertAll (f : κ → α → α) (l : List β) :
    (d.insertAll key value l).map f = (d.map f).insertAll key (fun b => f (key b) (value b)) l := by
  induction l generalizing d with
  | nil => rfl
  | cons b l ih =>
    change ((d.insert (key b) (value b)).insertAll key value l).map f = _
    rw [ih, map_insert]
    rfl

end Dict

/-- The permit, whoever it was granted to. -/
def Holding.anonymous (g : Holding) : Holding := { g with grantee := 0 }

def Slot.anonymous (s : Slot) : Slot := { s with holdings := s.holdings.map Holding.anonymous }

/-- The service, whichever calls its permits were granted to. -/
def Service.anonymous (s : Service) : Service :=
  { s with slots := s.slots.map fun _ => Slot.anonymous }

def Deed.anonymous : Deed → Deed
  | granted key ticket g party budget => granted key ticket g.anonymous party budget
  | returned key g party => returned key g.anonymous party
  | deed => deed

/-- What the fact tells, whoever did it. A reply tells nothing of that. -/
def Fact.done? (f : Fact) : Option Deed :=
  match f.deed with
  | .answered _ => none
  | deed => some deed.anonymous

/-- Makes the calls one after another, until one of them is answered by an error, and tells how this
ended. -/
def Service.inTurn (make : Service → CallId → Request → Turn) (s : Service) :
    List (CallId × Request) → Reply × Turn
  | [] => (.ok .done, s.rest)
  | (call, request) :: l =>
    let t := make s call request
    match (t.facts.filterMap Fact.reply?).lookup call with
    | some (.error e) => (.error e, t)
    | _ => ((t.service.inTurn make l).1, t.andThen fun s => (s.inTurn make l).2)

/-- The call does what the row of calls does and ends as that ends. -/
structure Turn.InTurn (t : Turn) (call : CallId) (row : Reply × Turn) : Prop where
  reply : t.facts.filterMap Fact.reply? = [(call, row.1)]
  service : t.service.anonymous = row.2.service.anonymous
  done : t.facts.filterMap Fact.done? = row.2.facts.filterMap Fact.done?
  heard : ∀ listener, (heard listener t.facts).map Prod.snd =
    (heard listener row.2.facts).map Prod.snd

/-- Why nothing on the resource can be given back, if that is so. -/
def Service.returnError? (s : Service) (key : Key) (party : Party) : Option LockError :=
  match s.slots.get? key with
  | none => some (.neverLocked key)
  | some slot => if ∃ g ∈ slot.holdings, party.Holds g then none
      else some (.notOwner key party.listed)

/-- One permit of each resource in front of the first that cannot be given back is given back, each
time the oldest that the party holds; that first one tells the error, if there is one, and nothing
else is changed. -/
def Turn.GivesBack (t : Turn) (s : Service) (call : CallId) (typeName : String) (party : Party)
    (ids : List ResourceId) : Prop :=
  ∃ given later slots, ids = given ++ later ∧ t.service = { s with slots } ∧
    ((later = [] ∧ t.facts.filterMap Fact.reply? = [(call, .ok .done)]) ∨
      ∃ id rest e, later = id :: rest ∧ s.returnError? (typeName, id) party = some e ∧
        t.facts.filterMap Fact.reply? = [(call, .error e)]) ∧
    (∀ id ∈ given, ∃ slot g slot', s.slots.get? (typeName, id) = some slot ∧
      slot.Returns party g slot' ∧ slots.get? (typeName, id) = some slot') ∧
    ∀ key, (∀ id ∈ given, key ≠ (typeName, id)) → slots.get? key = s.slots.get? key

section

theorem heard_eq_of_done (listener : CallId) (fs : List Fact) :
    (heard listener fs).map Prod.snd = (fs.filterMap Fact.done?).filterMap fun deed =>
      match deed with
      | .announced l kind event => if l = listener then some (kind, event) else none
      | _ => none := by
  rw [heard, List.map_filterMap, List.filterMap_filterMap]
  congr 1
  funext f
  obtain ⟨call, deed⟩ := f
  cases deed with
  | announced l kind event =>
    by_cases hl : l = listener <;> simp [Fact.heard?, Fact.done?, Deed.anonymous, hl]
  | _ => rfl

end

namespace Service

variable {s : Service} {call : CallId} {key : Key} {party : Party} {typeName : String}
    {ids : List ResourceId}

theorem giveBack_of_returnError (keyed : Keyed s.slots) {e : LockError}
    (h : s.returnError? key party = some e) (call : CallId) :
    s.giveBack call key party (fun g => party.Holds g) = .error e := by
  unfold returnError? at h
  refine (giveBack_error_iff keyed).2 ?_
  cases found : s.slots.get? key with
  | none =>
    rw [found] at h
    cases h
    exact .inl ⟨rfl, rfl⟩
  | some slot =>
    simp only [found] at h
    split at h
    · cases h
    · rename_i hnone
      cases h
      exact .inr ⟨slot, rfl, fun g hg hholds => hnone ⟨g, hg, of_decide_eq_true hholds⟩, rfl⟩

theorem held_of_returnError (h : s.returnError? key party = none) :
    ∃ slot, s.slots.get? key = some slot ∧ ∃ g ∈ slot.holdings, party.Holds g := by
  unfold returnError? at h
  cases found : s.slots.get? key with
  | none =>
    rw [found] at h
    cases h
  | some slot =>
    simp only [found] at h
    split at h
    · rename_i held
      exact ⟨slot, rfl, held⟩
    · cases h

theorem returnError_congr {s' : Service} (h : s'.slots.get? key = s.slots.get? key) :
    s'.returnError? key party = s.returnError? key party := by
  rw [returnError?, returnError?, h]

/-- What listeners are told does not depend on who tells them. -/
theorem done_announce (s : Service) (a b : CallId) (kind : EventKind) (event : LockEvent) :
    (s.announce a kind event).filterMap Fact.done? =
      (s.announce b kind event).filterMap Fact.done? := by
  unfold announce
  split
  · rw [List.filterMap_map, List.filterMap_map]
    rfl
  · rfl

theorem inTurn_of_error {make : Service → CallId → Request → Turn} {request : Request}
    {e : LockError} (reply : (make s call request).facts.filterMap Fact.reply? = [(call, .error e)])
    (l : List (CallId × Request)) :
    s.inTurn make ((call, request) :: l) = (.error e, make s call request) := by
  simp only [inTurn, reply, List.lookup_cons_self]

theorem inTurn_of_ok {make : Service → CallId → Request → Turn} {request : Request}
    {answer : Answer}
    (reply : (make s call request).facts.filterMap Fact.reply? = [(call, .ok answer)])
    (l : List (CallId × Request)) :
    s.inTurn make ((call, request) :: l) = (((make s call request).service.inTurn make l).1,
      (make s call request).andThen fun s => (s.inTurn make l).2) := by
  simp only [inTurn, reply, List.lookup_cons_self]

/-- To give back one resource after another is to unlock each of them in turn. -/
theorem inTurn_unlock {type : ResourceType} (call : CallId) (number : ResourceId → CallId)
    (sound : ∀ key slot, s.slots.get? key = some slot → slot.Sound) (keyed : Keyed s.slots)
    (idle : ∀ id ∈ ids, s.callers.get? (number id) = none)
    (resolved : s.resolveFor typeName party = .ok type) :
    let t := s.giveBackAll call typeName party ids
    let row := s.inTurn start (ids.map fun id => (number id, .unlock typeName id party))
    t.facts.filterMap Fact.reply? = [(call, row.1)] ∧ t.service = row.2.service ∧
      t.facts.filterMap Fact.done? = row.2.facts.filterMap Fact.done? := by
  induction ids generalizing s with
  | nil => exact ⟨rfl, rfl, rfl⟩
  | cons id ids ih =>
    have hstart : s.start (number id) (.unlock typeName id party) =
        s.giveBackAll (number id) typeName party [id] :=
      @start_of_unlocks s _ typeName party [id] type (.unlock typeName id party)
        (idle id List.mem_cons_self) resolved
        rfl
    cases herror : s.returnError? (typeName, id) party with
    | some e =>
      have hback := giveBack_of_returnError keyed herror
      simp only [giveBackAll, hback] at hstart
      have hreply : (s.start (number id) (.unlock typeName id party)).facts.filterMap Fact.reply? =
          [(number id, .error e)] := by
        rw [hstart]
        rfl
      rw [List.map_cons, inTurn_of_error hreply, hstart]
      simp only [giveBackAll, hback]
      exact ⟨rfl, rfl, rfl⟩
    | none =>
      obtain ⟨slot, found, held⟩ := held_of_returnError herror
      obtain ⟨g, slot', hreturns, hback⟩ := giveBack_of_held found (sound _ _ found) held
      simp only [giveBackAll, hback] at hstart
      have hreply : (s.start (number id) (.unlock typeName id party)).facts.filterMap Fact.reply? =
          [(number id, .ok .done)] := by
        rw [hstart, Turn.facts_andThen, List.filterMap_append, replies_returned]
        rfl
      obtain ⟨ihreply, ihservice, ihdone⟩ := @ih
        { s with slots := s.slots.insert (typeName, id) slot' }
        (Dict.forall_get?_insert sound (hreturns.sound (sound _ _ found)))
        (Dict.forall_get?_insert keyed (hreturns.key_eq.trans (keyed _ _ found)))
        (fun id' hid' => idle id' (List.mem_cons_of_mem _ hid')) resolved
      rw [List.map_cons, inTurn_of_ok hreply, hstart]
      simp only [giveBackAll, hback, Turn.andThen, answer] at ihreply ihservice ihdone ⊢
      refine ⟨?_, ihservice, ?_⟩
      · rw [List.filterMap_append, replies_returned, List.nil_append]
        exact ihreply
      · have hdone (a : CallId) : (⟨a, .returned (typeName, id) g party⟩ ::
            s.announce a .unlocked ⟨typeName, id, party.listed⟩).filterMap Fact.done? =
            .returned (typeName, id) g.anonymous party ::
              (s.announce call .unlocked ⟨typeName, id, party.listed⟩).filterMap Fact.done? :=
          congrArg (_ :: ·) (s.done_announce a call _ _)
        have hanswer : [(⟨number id, .answered (.ok .done)⟩ : Fact)].filterMap Fact.done? = [] :=
          rfl
        simp only [List.filterMap_append, ihdone, hdone, hanswer, List.append_nil]

/-- What is given back, resource by resource, is told by the slots as they are at the beginning. -/
theorem givesBack_giveBackAll (call : CallId) (nodup : ids.Nodup)
    (sound : ∀ key slot, s.slots.get? key = some slot → slot.Sound) (keyed : Keyed s.slots) :
    (s.giveBackAll call typeName party ids).GivesBack s call typeName party ids := by
  induction ids generalizing s with
  | nil => exact ⟨[], [], s.slots, rfl, rfl, .inl ⟨rfl, rfl⟩, by simp, fun _ _ => rfl⟩
  | cons id ids ih =>
    obtain ⟨hnotMem, hnodup⟩ := List.nodup_cons.1 nodup
    cases herror : s.returnError? (typeName, id) party with
    | some e =>
      have hback := giveBack_of_returnError keyed herror
      simp only [giveBackAll, hback]
      exact ⟨[], id :: ids, s.slots, rfl, rfl, .inr ⟨id, ids, e, rfl, herror, rfl⟩,
        by simp, fun _ _ => rfl⟩
    | none =>
      obtain ⟨slot, found, held⟩ := held_of_returnError herror
      obtain ⟨g, slot', hreturns, hback⟩ := giveBack_of_held found (sound _ _ found) held
      obtain ⟨given, later, slots, rfl, hservice, hends, hgiven, hother⟩ := @ih
        { s with slots := s.slots.insert (typeName, id) slot' } hnodup
        (Dict.forall_get?_insert sound (hreturns.sound (sound _ _ found)))
        (Dict.forall_get?_insert keyed (hreturns.key_eq.trans (keyed _ _ found)))
      -- the other resources are found as they were
      have hsame {id' : ResourceId} (hid' : id' ∈ given ++ later) :
          (s.slots.insert (typeName, id) slot').get? (typeName, id') =
            s.slots.get? (typeName, id') := by
        refine Dict.get?_insert_of_ne _ _ fun heq => ?_
        cases heq
        exact hnotMem hid'
      have hreplies : (s.giveBackAll call typeName party (id :: (given ++ later))).facts.filterMap
        Fact.reply? =
          (giveBackAll { s with slots := s.slots.insert (typeName, id) slot' } call typeName party
            (given ++ later)).facts.filterMap Fact.reply? := by
        simp only [giveBackAll, hback, Turn.facts_andThen, List.filterMap_append, replies_returned,
          List.nil_append]
      have hafter : (s.giveBackAll call typeName party (id :: (given ++ later))).service =
          { s with slots } := by
        simp only [giveBackAll, hback, Turn.service_andThen, hservice]
      refine ⟨id :: given, later, slots, rfl, hafter, ?ends,
        List.forall_mem_cons.2 ⟨?first, ?others⟩, ?kept⟩
      case ends =>
        rw [hreplies]
        refine hends.imp_right ?_
        rintro ⟨id', rest, e, rfl, he, hreply⟩
        refine ⟨id', rest, e, rfl, ?_, hreply⟩
        rw [← he]
        exact (returnError_congr (hsame (List.mem_append_right _ List.mem_cons_self))).symm
      case first =>
        refine ⟨slot, g, slot', found, hreturns, ?_⟩
        rw [hother _ fun id' hid' heq => ?_, Dict.get?_insert_self]
        cases heq
        exact hnotMem (List.mem_append_left _ hid')
      case others =>
        intro id' hid'
        rw [← hsame (List.mem_append_left _ hid')]
        exact hgiven id' hid'
      case kept =>
        intro key hkey
        obtain ⟨hne, hrest⟩ := List.forall_mem_cons.1 hkey
        rw [hother key hrest, Dict.get?_insert_of_ne _ _ (Ne.symm hne)]

end Service

namespace Service

variable {s : Service} {call : CallId} {type : ResourceType} {party : Party} {ids : List ResourceId}
    {id : ResourceId}

/-- What a call tells that takes a permit which is to be had, and waits as long as it takes. -/
def taking (s : Service) (call : CallId) (type : ResourceType) (party : Party)
    (id : ResourceId) : List Fact :=
  let (slot, made) := s.slotFor call type id
  made ++ ⟨call, .queued (type.name, id) slot.nextTicket 0 false⟩ ::
    ⟨call, .granted (type.name, id) slot.nextTicket
        ⟨slot.nextSerial, party.owners, call⟩ party none⟩ ::
      s.announce call .locked ⟨type.name, id, party.listed⟩

/-- The caller comes to a resource of which a permit is to be had, in the service as it was when the
call began but for other resources. -/
theorem facts_enter {slots : Dict Key Slot} {before c : Caller} (hold : c.goal = .hold)
    (same : slots.get? (c.keyOf id) = s.slots.get? (c.keyOf id)) (sound : (s.slotOf c id).Sound)
    (hopen : (s.slotOf c id).Open) :
    ((s.amid call slots before s.clock).enter call c id).facts =
      s.taking call c.type c.party id := by
  have hslot : (s.amid call slots before s.clock).slotFor call c.type id =
      s.slotFor call c.type id := by
    have hget : (s.amid call slots before s.clock).slots.get? (c.type.name, id) =
        s.slots.get? (c.type.name, id) := same
    simp only [slotFor, hget]
  have hfound := s.slotFor_fst call c id
  have hserves := (Slot.serves_enqueue_iff sound).2 hopen
  rw [← hfound] at hserves hopen
  simp only [enter, hslot, hserves, if_true, hold, Goal.budget, hopen.2, List.length_nil, taking]
  rfl

/-- A caller that is to have all that is left to it takes one resource after another and is
answered. -/
theorem facts_drive {c₀ : Caller} (ho : Outset s call c₀) (hold : c₀.goal = .hold)
    {taken rest : List ResourceId}
    (way : c₀.rest = taken ++ rest) (free : ∀ id ∈ c₀.rest, ¬ s.Blocked (c₀.keyOf id)) :
    ((s.amid call (s.withTaken call c₀ taken) (s.callerAt c₀ taken rest .next) s.clock).drive
      call).facts =
      rest.flatMap (s.taking call c₀.type c₀.party) ++ [⟨call, .answered (.ok .done)⟩] := by
  induction rest generalizing taken with
  | nil =>
    have hmove :
      (s.amid call (s.withTaken call c₀ taken) (s.callerAt c₀ taken [] .next) s.clock).move call =
        some ((s.amid call (s.withTaken call c₀ taken)
          (s.callerAt c₀ taken [] .next) s.clock).finish call (.ok c₀.goal.success)) := by
      simp only [move, get?_amid, callerAt]
    rw [drive_of_move hmove, Turn.facts_andThen,
      drive_of_still (move_of_idle (Dict.get?_erase_self _ _)), hold]
    rfl
  | cons id rest ih =>
    have hmove : (s.amid call (s.withTaken call c₀ taken)
      (s.callerAt c₀ taken (id :: rest) .next) s.clock).move call =
        some ((s.amid call (s.withTaken call c₀ taken)
          (s.callerAt c₀ taken (id :: rest) .next) s.clock).enter call
            (s.callerAt c₀ taken rest .next) id) := by
      simp only [move, get?_amid, callerAt]
    have hsame := @Outset.get?_withTaken _ _ _ ho _ _ _ way
    have hopen := ho.slotOf_open (free id (by simp [way]))
    have hfacts := @facts_enter s call id (s.withTaken call c₀ taken)
      (s.callerAt c₀ taken (id :: rest) .next)
      (s.callerAt c₀ taken rest .next) hold hsame (ho.slotOf_sound id) hopen
    obtain ⟨hservice, -⟩ := @enter_open s call (s.callerAt c₀ taken rest .next) id
      (s.withTaken call c₀ taken)
      (s.callerAt c₀ taken (id :: rest) .next) s.clock (s.slotOf c₀ id)
        (congrArg (Option.getD · _) hsame)
      (ho.slotOf_sound id) hopen
    have hnext := @ih (taken ++ [id]) (by simp [way])
    rw [withTaken, Dict.insertAll_snoc, callerAt, List.map_append] at hnext
    rw [drive_of_move hmove, Turn.facts_andThen, hservice, hfacts, List.flatMap_cons,
      List.append_assoc]
    exact congrArg (_ ++ ·) hnext

/-- What the slot of a resource is when a call has taken a permit. -/
def leftBy (s : Service) (type : ResourceType) (party : Party) (call : CallId)
    (id : ResourceId) : Slot :=
  ((s.slots.get? (type.name, id)).getD (Slot.fresh type id)).taken party.owners call

/-- A permit of each of the resources is to be had, and nothing else is in the way of a call for
it. -/
structure Offers (s : Service) (type : ResourceType) (party : Party)
    (ids : List ResourceId) : Prop where
  registry : s.registry.Sound
  sound : ∀ key slot, s.slots.get? key = some slot → slot.Sound
  resolved : s.resolveFor type.name party = .ok type
  free : ∀ id ∈ ids, ¬ s.Blocked (type.name, id)

/-- What a lock of resources of which none is blocked does, told from the service that it finds. -/
theorem Offers.start_lock (offers : s.Offers type party ids) {request : Request}
    (locks : request.locks? = some (type.name, ids, party)) (idle : s.callers.get? call = none) :
    s.start call request =
      ⟨{ s with
          slots := s.slots.insertAll (fun id => (type.name, id)) (s.leftBy type party call)
            (distinct ids) },
        (distinct ids).flatMap (s.taking call type party) ++ [⟨call, .answered (.ok .done)⟩]⟩ := by
  have hfree : ∀ id ∈ distinct ids, ¬ s.Blocked (type.name, id) :=
    fun id hid => offers.free id (mem_distinct.1 hid)
  have hout : Outset s call (s.beginner type ids party .hold) :=
    ⟨idle, offers.sound, ⟨rfl, rfl, nodup_distinct ids,
      (offers.registry _ _ (resolveFor_ok offers.resolved)).2⟩, fun id hid hblocked =>
        absurd hblocked (hfree id hid)⟩
  obtain ⟨seeks, aims, names⟩ := seeks_of_locks locks s.groupTimeout
  obtain ⟨hservice, -⟩ := start_free seeks aims offers.resolved hout names offers.registry hfree
  have hsubmit : s.submit call request =
      ⟨s.amid call s.slots (s.beginner type ids party .hold) s.clock, []⟩ := by
    rw [submit_of_seeks seeks, engage, offers.resolved, aims]
    rfl
  have hfacts : (s.start call request).facts =
      (distinct ids).flatMap (s.taking call type party) ++ [⟨call, .answered (.ok .done)⟩] := by
    rw [start, Turn.facts_andThen, hsubmit]
    exact @facts_drive s call (s.beginner type ids party .hold) hout rfl [] (distinct ids) rfl hfree
  exact congrArg₂ Turn.mk hservice hfacts

/-- To take a permit of one resource leaves the others as they are. -/
theorem Offers.next {slot : Slot} (offers : s.Offers type party (id :: ids)) (notMem : id ∉ ids)
    (sound : slot.Sound) : Offers { s with slots := s.slots.insert (type.name, id) slot } type
      party ids where
  registry := offers.registry
  sound := Dict.forall_get?_insert offers.sound sound
  resolved := offers.resolved
  free := by
    rintro id' hid' ⟨slot', found, hblocked⟩
    refine offers.free id' (List.mem_cons_of_mem _ hid') ⟨slot', ?_, hblocked⟩
    rw [← found]
    refine (Dict.get?_insert_of_ne _ _ fun heq => ?_).symm
    cases heq
    exact notMem hid'

/-- A lock of one resource leaves the others to be had. -/
theorem Offers.start_lock_one (offers : s.Offers type party (id :: ids)) (notMem : id ∉ ids)
    (idle : s.callers.get? call = none) :
    ∃ slots, s.start call (.lock type.name id party) =
        ⟨{ s with slots }, s.taking call type party id ++ [⟨call, .answered (.ok .done)⟩]⟩ ∧
      slots = s.slots.insert (type.name, id) (s.leftBy type party call id) ∧
      Offers { s with slots } type party ids ∧
      ∀ other ∈ ids, slots.get? (type.name, other) = s.slots.get? (type.name, other) := by
  have hfree := offers.free id List.mem_cons_self
  have hstart := @Offers.start_lock s call type party [id]
    ⟨offers.registry, offers.sound, offers.resolved, List.forall_mem_singleton.2 hfree⟩
    (.lock type.name id party) rfl
    idle
  have hone : distinct [id] = [id] := rfl
  rw [hone, List.flatMap_singleton] at hstart
  have permits := (offers.registry _ _ (resolveFor_ok offers.resolved)).2
  have hsound : (s.slotOf (s.beginner type [id] party .hold) id).Sound :=
    slotOf_sound offers.sound permits
  have hserves := (Slot.serves_enqueue_iff hsound).2 (slotOf_open permits hfree)
  refine ⟨_, hstart, rfl, offers.next notMem (hsound.enqueue.grant hserves _ _),
    fun other hother => ?_⟩
  refine Dict.get?_insert_of_ne _ _ fun heq => ?_
  cases heq
  exact notMem hother

/-- What a call takes of a resource is told by what is found there. -/
theorem taking_congr {slots : Dict Key Slot}
    (h : slots.get? (type.name, id) = s.slots.get? (type.name, id)) :
    taking { s with slots } call type party id = s.taking call type party id := by
  have hslot : slotFor { s with slots } call type id = s.slotFor call type id := by
    simp only [slotFor, h]
  simp only [taking, hslot]
  rfl

theorem leftBy_congr {slots : Dict Key Slot}
    (h : slots.get? (type.name, id) = s.slots.get? (type.name, id)) :
    leftBy { s with slots } type party call id = s.leftBy type party call id := by
  rw [leftBy, leftBy, h]

theorem replies_taking : (s.taking call type party id).filterMap Fact.reply? = [] := by
  rw [taking, List.filterMap_append, replies_slotFor, List.filterMap_cons_none rfl,
    List.filterMap_cons_none rfl, replies_of_tells (tells_announce _ _ _ _)]
  rfl

/-- To lock one resource after another takes the permits that a lock of all of them takes. -/
theorem Offers.inTurn_lock (offers : s.Offers type party ids) (number : ResourceId → CallId)
    (idle : ∀ id ∈ ids, s.callers.get? (number id) = none) (nodup : ids.Nodup) :
    s.inTurn start (ids.map fun id => (number id, .lock type.name id party)) =
      (.ok .done,
        ⟨{ s with
            slots := s.slots.insertAll (fun id => (type.name, id))
              (fun id => s.leftBy type party (number id) id) ids },
          ids.flatMap fun id => s.taking (number id) type party id ++
            [⟨number id, .answered (.ok .done)⟩]⟩) := by
  induction ids generalizing s with
  | nil => rfl
  | cons id ids ih =>
    obtain ⟨hnotMem, hnodup⟩ := List.nodup_cons.1 nodup
    obtain ⟨slots, hstart, hslots, hnext, hsame⟩ :=
      offers.start_lock_one hnotMem (idle id List.mem_cons_self)
    have hreply : (s.start (number id) (.lock type.name id party)).facts.filterMap Fact.reply? =
        [(number id, .ok .done)] := by
      rw [hstart, List.filterMap_append, replies_taking]
      rfl
    have ih := ih hnext (fun id' hid' => idle id' (List.mem_cons_of_mem _ hid')) hnodup
    rw [List.map_cons, inTurn_of_ok hreply, hstart]
    have hleft : slots.insertAll (fun id => (type.name, id))
        (fun id => leftBy { s with slots } type party (number id) id) ids =
          s.slots.insertAll (fun id => (type.name, id))
            (fun id => s.leftBy type party (number id) id) (id :: ids) := by
      rw [Dict.insertAll_congr _ fun id' hid' => leftBy_congr (hsame id' hid'), hslots]
      rfl
    have htold : (ids.flatMap fun id =>
        taking { s with slots } (number id) type party id ++ [⟨number id, .answered (.ok .done)⟩]) =
          ids.flatMap fun id => s.taking (number id) type party id ++
            [⟨number id, .answered (.ok .done)⟩] :=
      List.flatMap_congr fun id' hid' => by rw [taking_congr (hsame id' hid')]
    simp only [Turn.andThen, ih, hleft, htold, List.flatMap_cons]

/-- What is left does not depend on who takes it, but for the name of the call in the permit. -/
theorem anonymous_leftBy (a b : CallId) :
    (s.leftBy type party a id).anonymous = (s.leftBy type party b id).anonymous := by
  simp only [leftBy, Slot.taken, Slot.grant, Slot.wakeIf, Slot.anonymous, List.map_append,
    List.map_cons, List.map_nil, Holding.anonymous]

theorem done_taking (a b : CallId) :
    (s.taking a type party id).filterMap Fact.done? =
      (s.taking b type party id).filterMap Fact.done? := by
  have hmade : (s.slotFor a type id).2.filterMap Fact.done? =
      (s.slotFor b type id).2.filterMap Fact.done? := by
    unfold slotFor
    split <;> rfl
  have hslot : (s.slotFor a type id).1 = (s.slotFor b type id).1 := by
    unfold slotFor
    split <;> rfl
  simp only [taking, List.filterMap_append, hmade, hslot]
  exact congrArg (_ ++ _ :: _ :: ·) (s.done_announce a b _ _)

/-- A lock of several resources of which none is blocked does what locks of each of them do. -/
theorem Offers.lockMany_inTurn (offers : s.Offers type party ids) (number : ResourceId → CallId)
    (idle : s.callers.get? call = none) (idles : ∀ id ∈ ids, s.callers.get? (number id) = none) :
    let row := s.inTurn start ((distinct ids).map fun id => (number id, .lock type.name id party))
    (s.start call (.lockMany type.name ids party)).InTurn call row ∧ row.1 = .ok .done := by
  have hstart := @offers.start_lock s call type party ids (.lockMany type.name ids party) rfl idle
  have hrow := @Offers.inTurn_lock s type party (distinct ids)
    ⟨offers.registry, offers.sound, offers.resolved,
      fun id hid => offers.free id (mem_distinct.1 hid)⟩ number
    (fun id hid => idles id (mem_distinct.1 hid)) (nodup_distinct ids)
  have hdone : (s.start call (.lockMany type.name ids party)).facts.filterMap Fact.done? =
      (s.inTurn start ((distinct ids).map fun id => (number id,
        .lock type.name id party))).2.facts.filterMap
        Fact.done? := by
    have hanswer (x : CallId) : [(⟨x, .answered (.ok .done)⟩ : Fact)].filterMap Fact.done? = [] :=
      rfl
    rw [hstart, hrow]
    simp only [List.filterMap_append, List.filterMap_flatMap, hanswer, List.append_nil]
    exact List.flatMap_congr fun id _ => done_taking call (number id)
  refine ⟨⟨?reply, ?service, hdone,
    fun listener => by rw [heard_eq_of_done, heard_eq_of_done, hdone]⟩, by rw [hrow]⟩
  case reply =>
    have hnone : ((distinct ids).flatMap (s.taking call type party)).filterMap Fact.reply? =
        [] := by
      simp only [List.filterMap_flatMap, replies_taking, List.flatMap_eq_nil_iff, implies_true]
    rw [hstart, hrow, List.filterMap_append, hnone]
    rfl
  case service =>
    rw [hstart, hrow]
    simp only [anonymous, Dict.map_insertAll]
    rw [Dict.insertAll_congr _ fun id _ => anonymous_leftBy call (number id)]

/-- An unlock of several resources does what unlocks of each of them do, as far as that is done. -/
theorem unlockMany_inTurn {typeName : String}
    (sound : ∀ key slot, s.slots.get? key = some slot → slot.Sound) (keyed : Keyed s.slots)
    (resolved : s.resolveFor typeName party = .ok type) (number : ResourceId → CallId)
    (idle : s.callers.get? call = none) (idles : ∀ id ∈ ids, s.callers.get? (number id) = none) :
    let t := s.start call (.unlockMany typeName ids party)
    let row := s.inTurn start ((distinct ids).map fun id => (number id, .unlock typeName id party))
    t.InTurn call row ∧ t.service = row.2.service ∧ t.GivesBack s call typeName party
      (distinct ids) := by
  have hstart : s.start call (.unlockMany typeName ids party) =
      s.giveBackAll call typeName party (distinct ids) :=
    start_of_unlocks idle resolved rfl
  obtain ⟨hreply, hservice, hdone⟩ :=
    inTurn_unlock call number sound keyed (fun id hid => idles id (mem_distinct.1 hid)) resolved
  rw [hstart]
  refine ⟨⟨hreply, by rw [hservice], hdone, fun listener => ?_⟩, hservice,
    givesBack_giveBackAll call (nodup_distinct ids) sound keyed⟩
  rw [heard_eq_of_done, heard_eq_of_done, hdone]

/-- Each of the calls is over before the next is made. -/
def CompletesAll (s : Service) : List (CallId × Request) → Prop
  | [] => True
  | c :: l => s.Completes c.1 c.2 ∧ (s.start c.1 c.2).service.CompletesAll l

theorem Offers.completesAll (offers : s.Offers type party ids) (number : ResourceId → CallId)
    (idle : ∀ id ∈ ids, s.callers.get? (number id) = none) (nodup : ids.Nodup) :
    s.CompletesAll (ids.map fun id => (number id, .lock type.name id party)) := by
  induction ids generalizing s with
  | nil => trivial
  | cons id ids ih =>
    obtain ⟨hnotMem, hnodup⟩ := List.nodup_cons.1 nodup
    obtain ⟨slots, hstart, -, hnext, -⟩ :=
      offers.start_lock_one hnotMem (idle id List.mem_cons_self)
    rw [List.map_cons, CompletesAll, Completes, hstart]
    exact ⟨idle id List.mem_cons_self,
      ih hnext (fun id' hid' => idle id' (List.mem_cons_of_mem _ hid')) hnodup⟩

theorem completesAll_unlock {typeName : String} (resolved : s.resolveFor typeName party = .ok type)
    (number : ResourceId → CallId) (idle : ∀ id ∈ ids, s.callers.get? (number id) = none) :
    s.CompletesAll (ids.map fun id => (number id, .unlock typeName id party)) := by
  induction ids generalizing s with
  | nil => trivial
  | cons id ids ih =>
    have hidle := idle id List.mem_cons_self
    obtain ⟨slots, hslots⟩ := frame_giveBackAll s (number id) typeName party (distinct [id])
    rw [List.map_cons, CompletesAll, Completes,
      @start_of_unlocks s _ typeName party [id] type (.unlock typeName id party) hidle resolved rfl,
      hslots]
    exact ⟨hidle, @ih { s with slots } resolved fun id' hid' => idle id'
      (List.mem_cons_of_mem _ hid')⟩

/-- Where nobody has a move and nobody is parked on what the calls name, it makes no difference
whether they are made as the commands of a session. -/
theorem CompletesAll.inTurn_perform {l : List (CallId × Request)} (ends : s.CompletesAll l)
    (hr : s.registry.Sound) (settled : s.Settled)
    (quiet : ∀ c ∈ l, s.callers.get? c.1 = none ∧
      ∃ keys, c.2.keys? = some keys ∧ ∀ key ∈ keys, s.parkedOn key = [])
    {way : Request → Command}
    (hway : ∀ request, way request ∈ [Command.call request, .await request]) :
    s.inTurn (fun s call request => s.perform call (way request)) l = s.inTurn start l := by
  induction l generalizing s with
  | nil => rfl
  | cons c l ih =>
    obtain ⟨⟨hidle, keys, names, unparked⟩, hquiet⟩ := List.forall_mem_cons.1 quiet
    obtain ⟨hends, hmore⟩ := ends
    obtain ⟨hsettled, hperform⟩ := hends.perform_eq names hr hidle settled unparked
    obtain ⟨slots, hframe⟩ := hends.frame names hr hidle
    rw [hframe] at hmore hsettled
    have ih := @ih { s with slots } hmore hr hsettled hquiet
    simp only [inTurn, hperform _ (hway c.2), Turn.andThen, hframe, ih]

/-- The ways to make calls: each by itself, or as a command of a session. Commands let the others
move on, so nobody may have a move, nor may anybody be parked on what the calls name. -/
inductive Makes (s : Service) (keys : List Key) : (Service → CallId → Request → Turn) → Prop
  | alone : Makes s keys start
  | command {way : Request → Command} (hway : ∀ request,
      way request ∈ [Command.call request, .await request])
      (settled : s.Settled) (unparked : ∀ key ∈ keys, s.parkedOn key = []) :
      Makes s keys fun s call request => s.perform call (way request)

section

variable {keys : List Key} {make : Service → CallId → Request → Turn} (makes : s.Makes keys make)
  (hr : s.registry.Sound)

include makes hr

theorem Makes.eq_start {request : Request} (ends : s.Completes call request)
    (names : request.keys? = some keys)
    (idle : s.callers.get? call = none) : make s call request = s.start call request := by
  cases makes with
  | alone => rfl
  | command hway settled unparked =>
    exact (ends.perform_eq names hr idle settled unparked).2 _ (hway request)

theorem Makes.inTurn_eq {l : List (CallId × Request)} (ends : s.CompletesAll l)
    (quiet : ∀ c ∈ l, s.callers.get? c.1 = none ∧ ∃ key ∈ keys, c.2.keys? = some [key]) :
    s.inTurn make l = s.inTurn start l := by
  cases makes with
  | alone => rfl
  | command hway settled unparked =>
    refine ends.inTurn_perform hr settled (fun c hc => ?_) hway
    obtain ⟨hidle, key, hkey, names⟩ := quiet c hc
    exact ⟨hidle, [key], names, List.forall_mem_singleton.2 (unparked key hkey)⟩

end

end Service

/-- However calls are made, an unlock of several resources comes to the same as an unlock of each,
in the order in which they first occur and as far as none fails: the permits before the first
resource of which the party holds none are back, the error is that of this resource, and it is left
as it was with all that comes after it. Where none of the resources is blocked, a lock of them comes
to the same as a lock of each. -/
theorem batches_in_turn (h : History) {typeName : String} {party : Party} {type : ResourceType}
    (resolved : h.service.resolveFor typeName party = .ok type) (ids : List ResourceId)
    {call : CallId} (number : ResourceId → CallId) (idle : h.service.callers.get? call = none)
    (idles : ∀ id ∈ ids, h.service.callers.get? (number id) = none)
    {make : Service → CallId → Request → Turn}
    (makes : h.service.Makes (ids.map fun id => (typeName, id)) make) :
    (let t := make h.service call (.unlockMany typeName ids party)
      let row := h.service.inTurn make ((distinct ids).map fun id =>
        (number id, .unlock typeName id party))
      t.InTurn call row ∧ t.service = row.2.service ∧
        t.GivesBack h.service call typeName party (distinct ids)) ∧
    ((∀ id ∈ ids, ¬ h.service.Blocked (typeName, id)) →
      let t := make h.service call (.lockMany typeName ids party)
      let row :=
        h.service.inTurn make ((distinct ids).map fun id => (number id, .lock typeName id party))
      t.InTurn call row ∧ row.1 = .ok .done) := by
  have hr := h.orderly.registry
  have sound := h.orderly.ledger.sound
  have keyed := h.orderly.ledger.keyed
  have hidles : ∀ id ∈ distinct ids, h.service.callers.get? (number id) = none := fun id hid =>
    idles id (mem_distinct.1 hid)
  have hkeys : ∀ id ∈ distinct ids, (typeName, id) ∈ ids.map fun id => (typeName, id) :=
    fun id hid =>
    List.mem_map_of_mem (mem_distinct.1 hid)
  constructor
  · have ends : h.service.Completes call (.unlockMany typeName ids party) := by
      obtain ⟨slots, hslots⟩ := Service.frame_giveBackAll h.service call typeName party
        (distinct ids)
      rw [Service.Completes, Service.start_of_unlocks idle resolved rfl, hslots]
      exact idle
    have hmake := makes.eq_start hr ends rfl idle
    have hrow := makes.inTurn_eq hr (Service.completesAll_unlock resolved number hidles) (by
      simp only [List.forall_mem_map]
      exact fun id hid => ⟨hidles id hid, _, hkeys id hid, rfl⟩)
    simp only [hmake, hrow]
    exact Service.unlockMany_inTurn sound keyed resolved number idle idles
  · intro free
    obtain rfl : type.name = typeName := (hr _ _ (Service.resolveFor_ok resolved)).1
    have offers : h.service.Offers type party ids := ⟨hr, sound, resolved, free⟩
    have offers' : h.service.Offers type party (distinct ids) :=
      ⟨hr, sound, resolved, fun id hid => free id (mem_distinct.1 hid)⟩
    have ends : h.service.Completes call (.lockMany type.name ids party) := by
      rw [Service.Completes, offers.start_lock rfl idle]
      exact idle
    have hmake := makes.eq_start hr ends rfl idle
    have hrow := makes.inTurn_eq hr (offers'.completesAll number hidles (nodup_distinct ids)) (by
      simp only [List.forall_mem_map]
      exact fun id hid => ⟨hidles id hid, _, hkeys id hid, rfl⟩)
    simp only [hmake, hrow]
    exact offers.lockMany_inTurn number idle idles

/-- Owner 7 holds a document twice and another one, and owner 8 holds two, for one of which owner 5
waits. Somebody listens for permits that are returned. -/
def shelf : History where
  start := .withType ⟨"doc", 2, .exclusivePerOwner⟩
  actions := [.submit 1 (.listen "ResourceUnlocked"),
    .submit 2 (.lockMany "doc" [1, 2] (.owner 7)), .move 2, .move 2, .move 2,
    .submit 3 (.lock "doc" 1 (.owner 7)), .move 3, .move 3,
    .submit 4 (.lockMany "doc" [3, 9] (.owner 8)), .move 4, .move 4, .move 4,
    .submit 5 (.lock "doc" 9 (.owner 8)), .move 5, .move 5,
    .submit 6 (.lock "doc" 9 (.owner 5)), .move 6]
  isNew := ⟨0, ⟨.perMember, [⟨"doc", 2, .exclusivePerOwner⟩]⟩, rfl⟩
  numbered := by decide

/-- An unlock of five documents stops at the third, which owner 7 does not hold, and does not come
to the last one, which was never locked. A lock of two, of which one is named twice, takes both. -/
theorem batches_in_turn_shelf :
    ∃ t row, t = shelf.service.perform 7 (.await (.unlockMany "doc" [1, 2, 1, 3, 4] (.owner 7))) ∧
      row = shelf.service.inTurn (fun s call request => s.perform call (.await request))
        [(8, .unlock "doc" 1 (.owner 7)), (8, .unlock "doc" 2 (.owner 7)),
          (8, .unlock "doc" 3 (.owner 7)), (8, .unlock "doc" 4 (.owner 7))] ∧
      t.InTurn 7 row ∧ t.service = row.2.service ∧
      t.GivesBack shelf.service 7 "doc" (.owner 7) [1, 2, 3, 4] ∧
      row.1 = .error (.notOwner ("doc", 3) [7]) ∧
      heard 1 t.facts = [(7, .unlocked, ⟨"doc", 1, [7]⟩), (7, .unlocked, ⟨"doc", 2, [7]⟩)] ∧
      (shelf.service.start 7 (.lockMany "doc" [2, 6, 2] (.owner 7))).InTurn 7
        (shelf.service.inTurn Service.start [(8, .lock "doc" 2 (.owner 7)),
          (8, .lock "doc" 6 (.owner 7))]) := by
  have settled : shelf.service.Settled := Service.firstMove_eq_none_iff.1 rfl
  have awaited (request : Request) : Command.await request ∈
      [Command.call request, .await request] := by simp
  obtain ⟨⟨hturn, hservice, hgives⟩, -⟩ :=
    @batches_in_turn shelf "doc" (.owner 7) ⟨"doc", 2, .exclusivePerOwner⟩ rfl
    [1, 2, 1, 3, 4] 7 (fun _ => 8) rfl (fun _ _ => rfl) _ (.command awaited settled (by decide))
  obtain ⟨-, hlock⟩ := @batches_in_turn shelf "doc" (.owner 7) ⟨"doc", 2, .exclusivePerOwner⟩ rfl
    [2, 6, 2] 7 (fun _ => 8) rfl (fun _ _ => rfl) _ .alone
  exact ⟨_, _, rfl, rfl, hturn, hservice, hgives, rfl, rfl, (hlock (by decide)).1⟩

end FairLocks
