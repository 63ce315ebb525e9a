import FairLocks.Proofs.Step
import FairLocks.Service.Submit

/-!
# Requests are steps

The first step of a call is its request. A request for permits whose checks pass starts a caller;
every other request is a visit. Permits are given back one resource after another, and each return
is an entry in the ledger.
-/
namespace FairLocks

set_option autoImplicit false

theorem Registry.resolve_ok {r : Registry} {name : String} {t : ResourceType} :
    r.resolve name = .ok t ↔ r.types.get? name = some t := by
  unfold resolve
  cases r.types.get? name <;> simp

theorem Registry.Sound.register {r r' : Registry} {t : ResourceType}
    {previous : Option ResourceType}
    (hr : r.Sound) (h : r.register t = .ok (r', previous)) : r'.Sound := by
  unfold Registry.register at h
  split at h
  · cases h
  · rename_i hpos
    cases h
    exact Dict.forall_get?_insert hr ⟨rfl, Nat.pos_of_ne_zero hpos⟩

namespace Service

variable {s : Service} {call : CallId} {t : Turn}

theorem tells_announce (s : Service) (call : CallId) (kind : EventKind) (event : LockEvent) :
    ∀ f ∈ s.announce call kind event, f.Tells call := by
  intro f hf
  unfold announce at hf
  split at hf
  · obtain ⟨l, -, rfl⟩ := List.mem_map.1 hf
    exact ⟨rfl, l.id, kind, event, rfl⟩
  · exact absurd hf List.not_mem_nil

theorem resolveFor_ok {typeName : String} {party : Party} {type : ResourceType}
    (h : s.resolveFor typeName party = .ok type) : s.registry.types.get? typeName = some type := by
  unfold resolveFor at h
  split at h
  · cases h
  · rename_i t ht
    split at h
    · cases h
    · split at h
      · cases h
      · cases h
        exact Registry.resolve_ok.1 ht

/-- What giving back does where it is done. -/
theorem giveBack_ok {key : Key} {party : Party} {p : Holding → Bool}
    (h : s.giveBack call key party p = .ok t) :
    ∃ slot g slot' told, s.slots.get? key = some slot ∧ slot.release? p = some (g, slot') ∧
      (∀ f ∈ told, f.Tells call) ∧
      t = ⟨{ s with slots := s.slots.insert key slot' },
        ⟨call, .returned key g party⟩ :: told⟩ := by
  unfold giveBack at h
  split at h
  · cases h
  · rename_i slot hslot
    split at h
    · cases h
    · rename_i g slot' hrelease
      cases h
      exact ⟨slot, g, slot', _, hslot, hrelease, tells_announce s call _ _, rfl⟩

/-- Nothing is given back only where nothing that may be given back is out. -/
theorem giveBack_error {key : Key} {party : Party} {p : Holding → Bool} {e : LockError}
    (h : s.giveBack call key party p = .error e) : ∀ g ∈ holdingsAt s.slots key, ¬ p g := by
  unfold giveBack at h
  split at h
  · rename_i hnone
    simp [holdingsAt, hnone]
  · rename_i slot hslot
    split at h
    · rename_i hrelease
      rw [holdingsAt_eq hslot]
      exact Slot.release_eq_none hrelease
    · cases h

theorem entries_returned {d : Dict Key Slot} {key : Key} {slot slot' : Slot} {p : Holding → Bool}
    {g : Holding} {told : List Fact} {party : Party} (found : d.get? key = some slot)
    (released : slot.release? p = some (g, slot')) (tells : ∀ f ∈ told, f.Tells call) :
    Entries d (⟨call, .returned key g party⟩ :: told) (d.insert key slot') :=
  .cons (.returned found released) (.silent fun f hf => (tells f hf).silent)

end Service

namespace Visit

variable {s : Service} {call : CallId} {t : Turn}

/-- One visit after the other is a visit. -/
theorem andThen {f : Service → Turn} (h : Visit s call t)
    (h' : Visit t.service call (f t.service)) :
    Visit s call (t.andThen f) where
  facts := by
    intro g hg
    rcases List.mem_append.1 hg with hg | hg
    · exact h.facts g hg
    · exact h'.facts g hg
  entries := h.entries.append h'.entries
  callers := h'.callers.trans h.callers
  registry := fun hr => h'.registry (h.registry hr)

/-- A visit that leaves the slots alone. -/
theorem aside {registry : Registry} {listeners : List Listener} {listening : Bool} {fs : List Fact}
    (hfacts : ∀ f ∈ fs, f.call = call ∧ f.deed.Visiting ∧ f.deed.Silent)
    (hregistry : s.registry.Sound → registry.Sound) :
    Visit s call ⟨{ s with registry, listeners, listening }, fs⟩ where
  facts := fun f hf => ⟨(hfacts f hf).1, (hfacts f hf).2.1⟩
  entries := .silent fun f hf => (hfacts f hf).2.2
  callers := rfl
  registry := hregistry

theorem answer (s : Service) (call : CallId) (reply : Reply) :
    Visit s call (s.answer call reply) := by
  refine aside ?_ id
  intro f hf
  rw [List.mem_singleton.1 hf]
  exact ⟨rfl, trivial, trivial⟩

theorem listeners (s : Service) (call : CallId) (listeners : List Listener) (listening : Bool)
    (reply : Reply) : Visit s call (Service.answer { s with listeners, listening } call reply) := by
  refine aside ?_ id
  intro f hf
  rw [List.mem_singleton.1 hf]
  exact ⟨rfl, trivial, trivial⟩

theorem createType (s : Service) (call : CallId) (type : ResourceType) :
    Visit s call (s.createType call type) := by
  unfold Service.createType
  split
  · exact answer s call _
  · rename_i registry previous hregister
    refine aside ?_ fun hr => hr.register hregister
    intro f hf
    rcases List.mem_cons.1 hf with rfl | hf
    · exact ⟨rfl, trivial, trivial⟩
    · rw [List.mem_singleton.1 hf]
      exact ⟨rfl, trivial, trivial⟩

theorem evictIdle (s : Service) (call : CallId) : Visit s call (s.evictIdle call) where
  facts := by
    intro f hf
    rcases List.mem_cons.1 hf with rfl | hf
    · exact ⟨rfl, trivial⟩
    · rw [List.mem_singleton.1 hf]
      exact ⟨rfl, trivial⟩
  entries := .cons .evicted (.cons (.silent trivial) .nil)
  callers := rfl
  registry := id

theorem giveBack {key : Key} {party : Party} {p : Holding → Bool}
    (h : s.giveBack call key party p = .ok t) : Visit s call t := by
  obtain ⟨slot, g, slot', told, hslot, hrelease, htold, rfl⟩ := Service.giveBack_ok h
  refine ⟨?_, Service.entries_returned hslot hrelease htold, rfl, id⟩
  intro f hf
  rcases List.mem_cons.1 hf with rfl | hf
  · exact ⟨rfl, trivial⟩
  · obtain ⟨hcall, _, _, _, hdeed⟩ := htold f hf
    rw [hdeed]
    exact ⟨hcall, trivial⟩

theorem giveBackAll (s : Service) (call : CallId) (typeName : String) (party : Party)
    (ids : List ResourceId) : Visit s call (s.giveBackAll call typeName party ids) := by
  induction ids generalizing s with
  | nil => exact answer s call _
  | cons id ids ih =>
    unfold Service.giveBackAll
    split
    · exact answer s call _
    · rename_i t ht
      exact (giveBack ht).andThen (ih t.service)

theorem unlockAll (s : Service) (call : CallId) (typeName : String) (ids : List ResourceId)
    (party : Party) : Visit s call (s.unlockAll call typeName ids party) := by
  unfold Service.unlockAll
  split
  · exact answer s call _
  · exact giveBackAll s call typeName party _

end Visit

namespace Service

/-- A request starts a caller, if any, before its first resource. -/
theorem callers_submit (s : Service) (call : CallId) (request : Request) :
    (s.submit call request).service.callers = s.callers ∨
      ∃ c : Caller, c.stage = .next ∧
        (s.submit call request).service.callers = s.callers.insert call c := by
  have hengage (typeName : String) (ids : List ResourceId) (party : Party) (goal : Goal) :
      (s.engage call typeName ids party goal).service.callers = s.callers ∨
        ∃ c : Caller, c.stage = .next ∧
          (s.engage call typeName ids party goal).service.callers = s.callers.insert call c := by
    unfold engage
    split
    · exact .inl rfl
    · exact .inr ⟨_, rfl, rfl⟩
  cases request with
  | createType t => exact .inl (Visit.createType s call t).callers
  | unlock | unlockMany => exact .inl (Visit.unlockAll s call _ _ _).callers
  | lock | lockMany | tryLock | tryLockMany | tryLockManyDetailed => exact hengage _ _ _ _
  | evictIdle | listen | removeListener | findType | typeNames | groupTimeout | slotState | isLocked
  | slotCount => exact .inl rfl

end Service

namespace Step

variable {past : List Fact} {s : Service} {call : CallId}

theorem engage_or_answer (hr : s.registry.Sound) (hu : Unused past s call) (typeName : String)
    (ids : List ResourceId) (party : Party) (goal : Goal) :
    Step past s call (s.engage call typeName ids party goal) := by
  unfold Service.engage
  split
  · exact .visit hu (.answer s call _)
  · rename_i type htype
    exact .engage hu ⟨rfl, rfl, nodup_distinct ids, (hr _ _ (Service.resolveFor_ok htype)).2⟩

/-- A request is one step of the call that makes it. -/
theorem submit (hr : s.registry.Sound) (hu : Unused past s call) (request : Request) :
    Step past s call (s.submit call request) := by
  cases request with
  | createType t => exact .visit hu (.createType s call t)
  | evictIdle => exact .visit hu (.evictIdle s call)
  | listen event => exact .visit hu (.listeners s call _ _ _)
  | removeListener listener => exact .visit hu (.listeners s call _ _ _)
  | unlock | unlockMany => exact .visit hu (.unlockAll s call _ _ _)
  | lock | lockMany | tryLock | tryLockMany | tryLockManyDetailed =>
    exact engage_or_answer hr hu _ _ _ _
  | findType | typeNames | groupTimeout | slotState | isLocked | slotCount =>
    exact .visit hu (.answer s call _)

end Step

end FairLocks
