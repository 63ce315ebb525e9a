import FairLocks.Config
import FairLocks.Service.Run

/-!
# Histories

A history is a new service and the actions that followed, with the moves of the callers interleaved
in any way. Every call has a number of its own. The results about the library speak of the facts
that a history leaves and of the service it ends in; a history that is cut short is a history again,
so they hold at every moment of it.
-/
namespace FairLocks

set_option autoImplicit false

/-- A service as a configuration makes it, before anybody has called it. -/
def Service.New (s : Service) : Prop := ∃ call c, (Service.ofConfig call c).1 = .ok s

/-- A new service that knows one type of resource. -/
def Service.withType (t : ResourceType) : Service :=
  { empty with registry := ⟨(∅ : Dict String ResourceType).insert t.name t⟩ }

theorem Service.new_withType {t : ResourceType} (h : 0 < t.capacity) : (withType t).New := by
  refine ⟨0, ⟨.perMember, [t]⟩, ?_⟩
  simp only [ofConfig, registerAll, Registry.register, Nat.ne_of_gt h, if_false]
  rfl

/-- A new service with documents, each of which one owner may hold. -/
theorem Service.new_doc : (withType ⟨"doc", 1, .exclusivePerOwner⟩).New :=
  new_withType Nat.one_pos

/-- A new service with documents, each of which two groups may hold. -/
theorem Service.new_groupDoc : (withType ⟨"doc", 2, .sharedGroup⟩).New :=
  new_withType Nat.two_pos

/-- The number under which the action brings a new call. -/
def Action.number? : Action → Option CallId
  | submit call _ => some call
  | move _ => none
  | pass _ => none

structure History where
  start : Service
  actions : List Action
  isNew : start.New
  numbered : (actions.filterMap Action.number?).Nodup

namespace Turn

@[simp] theorem service_andThen (t : Turn) (f : Service → Turn) :
    (t.andThen f).service = (f t.service).service := rfl

@[simp] theorem facts_andThen (t : Turn) (f : Service → Turn) :
    (t.andThen f).facts = t.facts ++ (f t.service).facts := rfl

end Turn

namespace Service

/-- A run of two parts is the run of the first and then of the second. -/
theorem run_append (s : Service) (as bs : List Action) :
    s.run (as ++ bs) = (s.run as).andThen fun s => s.run bs := by
  induction as generalizing s with
  | nil => rfl
  | cons a as ih =>
    simp only [List.cons_append, run, Turn.andThen, ih, List.append_assoc]

@[simp] theorem service_run_nil (s : Service) : (s.run []).service = s := rfl

@[simp] theorem facts_run_nil (s : Service) : (s.run []).facts = [] := rfl

theorem run_singleton (s : Service) (a : Action) : s.run [a] = s.act a := by
  rw [run, Turn.andThen, run, rest, List.append_nil]

theorem service_run_append (s : Service) (as bs : List Action) :
    (s.run (as ++ bs)).service = ((s.run as).service.run bs).service := by
  rw [run_append, Turn.service_andThen]

theorem facts_run_append (s : Service) (as bs : List Action) :
    (s.run (as ++ bs)).facts = (s.run as).facts ++ ((s.run as).service.run bs).facts := by
  rw [run_append, Turn.facts_andThen]

theorem service_run_cons (s : Service) (a : Action) (as : List Action) :
    (s.run (a :: as)).service = ((s.act a).service.run as).service := rfl

theorem facts_run_cons (s : Service) (a : Action) (as : List Action) :
    (s.run (a :: as)).facts = (s.act a).facts ++ ((s.act a).service.run as).facts := rfl

theorem service_run_snoc (s : Service) (as : List Action) (a : Action) :
    (s.run (as ++ [a])).service = ((s.run as).service.act a).service := service_run_append s as [a]

theorem facts_run_snoc (s : Service) (as : List Action) (a : Action) :
    (s.run (as ++ [a])).facts = (s.run as).facts ++ ((s.run as).service.act a).facts := by
  rw [facts_run_append, facts_run_cons, facts_run_nil, List.append_nil]

/-- Every fact of a run comes from one of its actions. -/
theorem exists_act_of_mem_run {s : Service} {as : List Action} {f : Fact}
    (hf : f ∈ (s.run as).facts) :
    ∃ before a after, as = before ++ a :: after ∧ f ∈ ((s.run before).service.act a).facts := by
  induction as generalizing s with
  | nil => exact absurd hf List.not_mem_nil
  | cons a as ih =>
    rw [facts_run_cons] at hf
    rcases List.mem_append.1 hf with hf | hf
    · exact ⟨[], a, as, rfl, hf⟩
    · obtain ⟨before, b, after, has, hb⟩ := ih hf
      exact ⟨a :: before, b, after, by rw [has, List.cons_append], hb⟩

end Service

namespace History

def service (h : History) : Service := (h.start.run h.actions).service

/-- All that happened, oldest first. -/
def facts (h : History) : List Fact := (h.start.run h.actions).facts

def upTo (h : History) {before after : List Action} (ha : h.actions = before ++ after) :
    History where
  start := h.start
  actions := before
  isNew := h.isNew
  numbered := by
    have hn := h.numbered
    rw [ha, List.filterMap_append] at hn
    exact (List.nodup_append.1 hn).1

theorem mem_facts_of_act {h : History} {before after : List Action} {a : Action}
    (ha : h.actions = before ++ a :: after) {f : Fact}
    (hf : f ∈ ((h.start.run before).service.act a).facts) : f ∈ h.facts := by
  rw [facts, ha, Service.facts_run_append, Service.facts_run_cons]
  exact List.mem_append_right _ (List.mem_append_left _ hf)

/-- The number of a call belongs to one of its actions only. -/
theorem number_unique {h : History} {before after : List Action} {call : CallId}
    {request : Request} (ha : h.actions = before ++ .submit call request :: after) :
    (∀ r, .submit call r ∉ before) ∧ ∀ r, .submit call r ∉ after := by
  have hn := h.numbered
  rw [ha, List.filterMap_append, List.nodup_append] at hn
  obtain ⟨-, hafter, hdisjoint⟩ := hn
  simp only [List.filterMap_cons, Action.number?, List.nodup_cons] at hafter hdisjoint
  constructor
  · intro r hr
    exact hdisjoint call (List.mem_filterMap.2 ⟨_, hr, rfl⟩) call List.mem_cons_self rfl
  · intro r hr
    exact hafter.1 (List.mem_filterMap.2 ⟨_, hr, rfl⟩)

end History

end FairLocks
