import FairLocks.Proofs.Refusals

/-!
# The last registration counts

A registry answers for each name with the type that was given last under it. A type without permits
is refused and changes nothing, so it counts for nobody. A configuration registers the types that it
lists in their order, and what it leaves is what a row of registrations leaves; the first type
without permits is the one that it fails with.
-/
namespace FairLocks

set_option autoImplicit false

theorem utf8_inj {a b : String} (h : utf8 a = utf8 b) : a = b :=
  String.toByteArray_inj.1 (ByteArray.ext (Array.toList_inj.1 h))

/-- What a look-up of the name comes to when these types were accepted, in order. -/
def lastNamed (name : String) (ts : List ResourceType) : Except LockError ResourceType :=
  match (ts.filter fun t => t.name = name).getLast? with
  | some t => .ok t
  | none => .error (.unknownType name)

@[simp] theorem lastNamed_nil (name : String) : lastNamed name [] = .error (.unknownType name) :=
  rfl

theorem lastNamed_concat (name : String) (ts : List ResourceType) (t : ResourceType) :
    lastNamed name (ts ++ [t]) = if t.name = name then .ok t else lastNamed name ts := by
  by_cases hname : t.name = name <;> simp [lastNamed, hname]

namespace Registry

/-- The registry after an attempt to register the type. -/
def after (r : Registry) (t : ResourceType) : Registry :=
  match r.register t with
  | .ok (r', _) => r'
  | .error _ => r

/-- The registry after a row of attempts. -/
def afterAll (r : Registry) (ts : List ResourceType) : Registry := ts.foldl after r

/-- What comes of an attempt to register the type. -/
structure Registers (r : Registry) (t : ResourceType) : Prop where
  refused : t.capacity = 0 → r.register t = .error (.invalidCapacity t.name 0) ∧ r.after t = r
  /-- The type that was found under the name before is handed out, and from now on this one is
  found. -/
  accepted : 0 < t.capacity → ∃ previous, r.register t = .ok (r.after t, previous) ∧
    (∀ old, previous = some old ↔ r.resolve t.name = .ok old) ∧
    (r.after t).resolve t.name = .ok t ∧
      ∀ name, name ≠ t.name → (r.after t).resolve name = r.resolve name

/-- The names are listed in the order of their bytes, each once, and they are those that are
found. -/
structure Listed (r : Registry) : Prop where
  ascending : r.names.Pairwise fun a b => utf8 a < utf8 b
  exactly : ∀ name, name ∈ r.names ↔ ∃ t, r.resolve name = .ok t

theorem resolve_eq_ok_iff {r : Registry} {name : String} {t : ResourceType} :
    r.resolve name = .ok t ↔ r.types.get? name = some t := by
  unfold resolve
  cases r.types.get? name <;> simp

variable (r : Registry) (t : ResourceType)

theorem register_of_eq_zero (h : t.capacity = 0) :
    r.register t = .error (.invalidCapacity t.name 0) := by
  rw [register, if_pos h, h]

theorem after_of_eq_zero (h : t.capacity = 0) : r.after t = r := by
  rw [after, r.register_of_eq_zero t h]

theorem register_of_pos (h : 0 < t.capacity) :
    r.register t = .ok (⟨r.types.insert t.name t⟩, r.types.get? t.name) := by
  rw [register, if_neg (Nat.ne_of_gt h)]

theorem after_of_pos (h : 0 < t.capacity) : r.after t = ⟨r.types.insert t.name t⟩ := by
  rw [after, r.register_of_pos t h]

theorem resolve_after (name : String) (h : 0 < t.capacity) :
    (r.after t).resolve name = if t.name = name then .ok t else r.resolve name := by
  rw [r.after_of_pos t h, resolve, Dict.get?_insert]
  by_cases hname : t.name = name
  · rw [if_pos hname, if_pos hname]
  · rw [if_neg hname, if_neg hname]
    rfl

theorem registers : r.Registers t where
  refused h := ⟨r.register_of_eq_zero t h, r.after_of_eq_zero t h⟩
  accepted h := by
    refine ⟨r.types.get? t.name, ?_, fun old => resolve_eq_ok_iff.symm, ?_, fun name hne => ?_⟩
    · rw [r.register_of_pos t h, r.after_of_pos t h]
    · rw [r.resolve_after t t.name h, if_pos rfl]
    · rw [r.resolve_after t name h, if_neg (Ne.symm hne)]

theorem listed : r.Listed := by
  have hperm : r.names.Perm r.types.keys := List.mergeSort_perm _ _
  constructor
  case ascending =>
    have hsorted : r.names.Pairwise fun a b => decide (utf8 a ≤ utf8 b) = true := by
      refine List.pairwise_mergeSort (fun a b c hab hbc => ?_) (fun a b => ?_) r.types.keys
      · exact decide_eq_true (List.le_trans (of_decide_eq_true hab) (of_decide_eq_true hbc))
      · simpa using List.le_total (utf8 a) (utf8 b)
    have hdistinct : r.names.Pairwise fun a b => a ≠ b := hperm.nodup_iff.2 r.types.nodup
    -- Two names that differ have different bytes, so the order of the list is strict.
    refine (hsorted.and hdistinct).imp fun ⟨hle, hne⟩ => ?_
    exact Std.lt_of_le_of_ne (of_decide_eq_true hle) fun heq => hne (utf8_inj heq)
  case exactly =>
    intro name
    simp only [resolve_eq_ok_iff]
    rw [hperm.mem_iff, Dict.mem_keys_iff]

variable {r} {t}

theorem afterAll_concat (r : Registry) (ts : List ResourceType) (t : ResourceType) :
    r.afterAll (ts ++ [t]) = (r.afterAll ts).after t := by
  rw [afterAll, afterAll, List.foldl_append, List.foldl_cons, List.foldl_nil]

theorem afterAll_append (r : Registry) (ts us : List ResourceType) :
    r.afterAll (ts ++ us) = (r.afterAll ts).afterAll us := List.foldl_append

/-- Among the types that have permits, the last of a name is the one that is found under it. -/
theorem resolve_afterAll (ts : List ResourceType) (name : String) :
    (empty.afterAll ts).resolve name = lastNamed name (ts.filter fun t => 0 < t.capacity) := by
  induction ts using List.reverseRecOn with
  | nil => rfl
  | append_singleton ts t ih =>
    rw [afterAll_concat, List.filter_append]
    rcases Nat.eq_zero_or_pos t.capacity with hzero | hpos
    · rw [after_of_eq_zero _ _ hzero, ih]
      simp [hzero]
    · rw [resolve_after _ _ _ hpos, ih, show [t].filter (fun t => 0 < t.capacity) =
        [t] by simp [hpos],
        lastNamed_concat]

end Registry

namespace Service

/-- What comes of a call that registers the type: nothing but the registry changes. -/
structure Creates (s : Service) (call : CallId) (t : ResourceType) : Prop where
  refused : t.capacity = 0 → s.act (.submit call (.createType t)) =
    ⟨s, [⟨call, .answered (.error (.invalidCapacity t.name 0))⟩]⟩
  accepted : 0 < t.capacity → ∃ previous, s.act (.submit call (.createType t)) =
      ⟨{ s with registry := s.registry.after t },
        [⟨call, .registered t previous⟩, ⟨call, .answered (.ok .done)⟩]⟩ ∧
    ∀ old, previous = some old ↔ s.registry.resolve t.name = .ok old

theorem creates (s : Service) (call : CallId) (t : ResourceType) : s.Creates call t where
  refused h := by
    simp only [act, submit, createType, s.registry.register_of_eq_zero t h, answer]
  accepted h := by
    obtain ⟨previous, hregister, hold, -⟩ := (s.registry.registers t).accepted h
    exact ⟨previous, by simp only [act, submit, createType, hregister], hold⟩

end Service

/-- The type that the action asks to register. -/
def Action.created? : Action → Option ResourceType
  | submit _ (.createType t) => some t
  | _ => none

namespace Service

theorem registry_act_of_created {s : Service} {a : Action} {t : ResourceType}
    (h : a.created? = some t) :
    (s.act a).service.registry = s.registry.after t := by
  obtain ⟨call, rfl⟩ : ∃ call, a = .submit call (.createType t) := by
    unfold Action.created? at h
    split at h
    · cases h
      exact ⟨_, rfl⟩
    · cases h
  rcases Nat.eq_zero_or_pos t.capacity with hzero | hpos
  · rw [(s.creates call t).refused hzero, s.registry.after_of_eq_zero t hzero]
  · obtain ⟨previous, hact, -⟩ := (s.creates call t).accepted hpos
    rw [hact]

/-- The registry after a run is that after the registrations the run asks for, whatever else it
does. -/
theorem registry_run (s : Service) (as : List Action) :
    (s.run as).service.registry = s.registry.afterAll (as.filterMap Action.created?) := by
  induction as using List.reverseRecOn with
  | nil => rfl
  | append_singleton as a ih =>
    rw [service_run_snoc, List.filterMap_append, Registry.afterAll_append, ← ih,
      List.filterMap_cons]
    cases hcreated : a.created? with
    | some t =>
      rw [registry_act_of_created hcreated]
      rfl
    | none =>
      rcases registry_act (s.run as).service a with ⟨hsame, -⟩ | ⟨_, _, rfl, -, -⟩
      · rw [hsame]
        rfl
      · cases hcreated

variable {s : Service} {call : CallId}

theorem registerAll_cons_of_pos {t : ResourceType} (ts : List ResourceType) (h : 0 < t.capacity) :
    (s.registerAll call (t :: ts)).1 =
      ({ s with registry := s.registry.after t }.registerAll call ts).1 := by
  rw [registerAll, s.registry.register_of_pos t h, s.registry.after_of_pos t h]

/-- Types that all have permits are registered one after another, and nothing else happens. -/
theorem registerAll_of_pos {ts : List ResourceType} (h : ∀ t ∈ ts, 0 < t.capacity) :
    (s.registerAll call ts).1 = .ok { s with registry := s.registry.afterAll ts } := by
  induction ts generalizing s with
  | nil => rfl
  | cons t ts ih =>
    rw [registerAll_cons_of_pos ts (h t List.mem_cons_self),
      ih fun u hu => h u (List.mem_cons_of_mem _ hu)]
    rfl

/-- The first type without permits ends the registering. -/
theorem registerAll_of_eq_zero {before after : List ResourceType} {t : ResourceType}
    (h : ∀ u ∈ before, 0 < u.capacity) (ht : t.capacity = 0) :
    (s.registerAll call (before ++ t :: after)).1 = .error (.invalidCapacity t.name 0) := by
  induction before generalizing s with
  | nil => simp only [List.nil_append, registerAll, s.registry.register_of_eq_zero t ht]
  | cons u before ih =>
    rw [List.cons_append, registerAll_cons_of_pos _ (h u List.mem_cons_self)]
    exact ih fun v hv => h v (List.mem_cons_of_mem _ hv)

end Service

namespace Config

/-- What comes of making a service from the configuration. -/
structure Loads (c : Config) (call : CallId) : Prop where
  succeeds : (∃ s, (Service.ofConfig call c).1 = .ok s) ↔ ∀ t ∈ c.resourceTypes, 0 < t.capacity
  refused : ∀ before t after, c.resourceTypes = before ++ t :: after →
    (∀ u ∈ before, 0 < u.capacity) →
    t.capacity = 0 → (Service.ofConfig call c).1 = .error (.invalidCapacity t.name 0)
  loaded : ∀ s, (Service.ofConfig call c).1 = .ok s →
    (∀ name, s.registry.resolve name = lastNamed name c.resourceTypes) ∧ s.registry.Listed ∧
      s.groupTimeout = c.groupTimeout ∧ s.slots = ∅

theorem ofConfig_of_pos {c : Config} (call : CallId) (h : ∀ t ∈ c.resourceTypes, 0 < t.capacity) :
    (Service.ofConfig call c).1 = .ok { Service.empty with
      groupTimeout := c.groupTimeout, registry := Registry.empty.afterAll c.resourceTypes } :=
  Service.registerAll_of_pos h

theorem loads (c : Config) (call : CallId) : c.Loads call := by
  have hpos : ∀ s, (Service.ofConfig call c).1 = .ok s → ∀ t ∈ c.resourceTypes, 0 < t.capacity := by
    intro s hs
    cases hfind : c.resourceTypes.find? fun t => decide (t.capacity = 0) with
    | none => exact fun t ht => Nat.pos_of_ne_zero fun hzero =>
      List.find?_eq_none.1 hfind t ht (decide_eq_true hzero)
    | some t =>
      obtain ⟨hzero, before, after, hc, hbefore⟩ := List.find?_eq_some_iff_append.1 hfind
      rw [Service.ofConfig, hc, Service.registerAll_of_eq_zero (fun u hu => ?_)
        (of_decide_eq_true hzero)] at hs
      · cases hs
      · exact Nat.pos_of_ne_zero fun hu0 => by simpa [hu0] using hbefore u hu
  refine ⟨⟨?positive, fun h => ⟨_, ofConfig_of_pos call h⟩⟩, ?refused, ?loaded⟩
  case positive =>
    rintro ⟨s, hs⟩
    exact hpos s hs
  case refused =>
    intro before t after hc hbefore hzero
    rw [Service.ofConfig, hc, Service.registerAll_of_eq_zero hbefore hzero]
  case loaded =>
    intro s hs
    have hall := hpos s hs
    cases (ofConfig_of_pos call hall).symm.trans hs
    refine ⟨fun name => ?_, Registry.listed _, rfl, rfl⟩
    rw [Registry.resolve_afterAll, List.filter_eq_self.2 fun t ht => decide_eq_true (hall t ht)]

end Config

/-- What holds of the registrations in a history that began with the configuration. -/
structure History.Registering (h : History) (c : Config) : Prop where
  /-- The configuration and the calls that followed make one row of registrations. -/
  found : ∀ name, h.service.registry.resolve name =
    lastNamed name ((c.resourceTypes ++ h.actions.filterMap Action.created?).filter fun t => 0 <
      t.capacity)
  listed : h.service.registry.Listed
  creates : ∀ before call t after, ∀ ha : h.actions = before ++ .submit call (.createType t) ::
    after,
    (h.upTo ha).service.Creates call t

theorem History.registering {h : History} {c : Config} {call : CallId}
    (hc : (Service.ofConfig call c).1 = .ok h.start) : h.Registering c := by
  have hall := (c.loads call).succeeds.1 ⟨_, hc⟩
  have hstart : h.start.registry = Registry.empty.afterAll c.resourceTypes := by
    rw [← Except.ok.inj ((Config.ofConfig_of_pos call hall).symm.trans hc)]
  have hregistry : h.service.registry =
      Registry.empty.afterAll (c.resourceTypes ++ h.actions.filterMap Action.created?) := by
    rw [service, Service.registry_run, hstart, Registry.afterAll_append]
  refine ⟨fun name => ?found, Registry.listed _,
    fun before call t after ha => Service.creates _ call t⟩
  rw [hregistry, Registry.resolve_afterAll]

/-- After any row of registrations, by calls in any history or by a configuration, a name is found
with the type that was given last under it; a type without permits is refused and changes
nothing. -/
theorem last_registration_counts :
    (∀ ts t, (Registry.empty.afterAll ts).Registers t) ∧
    (∀ ts, (Registry.empty.afterAll ts).Listed ∧ ∀ name, (Registry.empty.afterAll ts).resolve name =
      lastNamed name (ts.filter fun t => 0 < t.capacity)) ∧
    (∀ (h : History) (c : Config) (call : CallId), (Service.ofConfig call c).1 = .ok h.start →
      h.Registering c) ∧
    ∀ (c : Config) (call : CallId), c.Loads call :=
  ⟨fun _ t => Registry.registers _ t, fun ts => ⟨Registry.listed _, Registry.resolve_afterAll ts⟩,
    fun _ _ _ hc => History.registering hc, Config.loads⟩

/-- Documents are configured twice. -/
def docsTwice : Config :=
  ⟨.sharedBudget, [⟨"doc", 1, .exclusivePerOwner⟩, ⟨"été", 2, .sharedGroup⟩,
    ⟨"doc", 3, .exclusivePerOwner⟩]⟩

/-- They are registered without permits and at last for groups, while somebody locks one. -/
def registeredAgain : History where
  start :=
    { Service.empty with
      groupTimeout := .sharedBudget, registry := Registry.empty.afterAll docsTwice.resourceTypes }
  actions := [.submit 1 (.createType ⟨"doc", 0, .sharedGroup⟩),
    .submit 2 (.lock "doc" 1 (.owner 7)), .move 2, .submit 3 (.createType ⟨"doc", 4, .sharedGroup⟩),
    .move 2]
  isNew := ⟨0, docsTwice, rfl⟩
  numbered := by decide

/-- The registration without permits is refused, and the one for groups counts. A configuration
fails with the first of two types without permits. -/
theorem last_registration_counts_registeredAgain :
    registeredAgain.service.registry.resolve "doc" = .ok ⟨"doc", 4, .sharedGroup⟩ ∧
    registeredAgain.service.registry.resolve "été" = .ok ⟨"été", 2, .sharedGroup⟩ ∧
    registeredAgain.service.registry.resolve "dog" = .error (.unknownType "dog") ∧
    registeredAgain.service.registry.Listed ∧
    (Service.ofConfig 0 ((docsTwice.addType ⟨"b", 0, .sharedGroup⟩).addType
      ⟨"a", 0, .sharedGroup⟩)).1 =
      .error (.invalidCapacity "b" 0) := by
  obtain ⟨-, -, hhistory, hconfig⟩ := last_registration_counts
  have hregistering := hhistory registeredAgain docsTwice 0 rfl
  refine ⟨?_, ?_, ?_, hregistering.listed, ?_⟩
  · exact (hregistering.found "doc").trans rfl
  · exact (hregistering.found "été").trans rfl
  · exact (hregistering.found "dog").trans rfl
  · exact (hconfig _ 0).refused docsTwice.resourceTypes
      ⟨"b", 0, .sharedGroup⟩ [⟨"a", 0, .sharedGroup⟩] rfl
      (by decide) rfl

end FairLocks
