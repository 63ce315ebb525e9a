import FairLocks.Proofs.Kept
import FairLocks.Proofs.Moves
import FairLocks.Proofs.Waiting

/-!
# Every moment of a history is in order

The slots are those the facts tell of, the lines are made of the calls that wait, and every call has
what its own facts say. A new service is in order, and each step keeps it so; hence a history is in
order at each of its moments, and each of its facts comes from a step taken in good order.
-/
namespace FairLocks

set_option autoImplicit false

structure Orderly (past : List Fact) (s : Service) : Prop where
  ledger : Ledger past s.slots
  registry : s.registry.Sound
  lined : Lined past s.waits?
  told : Told past s
  kept : Kept s
  excused : Excused past s

namespace Orderly

variable {who : CallId → Prop} {past past' : List Fact} {s s' : Service} {call : CallId} {t : Turn}

theorem step (ho : Orderly past s) (h : Step past s call t) :
    Orderly (past ++ t.facts) t.service where
  ledger := ho.ledger.append h.entries
  registry := by
    cases h with
    | visit _ visit => exact visit.registry ho.registry
    | engage | advance | finish => exact ho.registry
  lined := h.lined ho.ledger ho.lined
  told := h.told ho.told
  kept := h.kept ho.ledger ho.kept
  excused := h.excused ho.ledger ho.told ho.excused

theorem leads (ho : Orderly past s) (h : Leads who past s past' s') : Orderly past' s' := by
  induction h with
  | refl => exact ho
  | step _ _ step ih => exact ih.step step
  | pass _ _ ih =>
    exact ⟨ih.ledger, ih.registry, ih.lined, fun x c hc => by
      obtain ⟨c₀, hbegun, hw⟩ := ih.told x c hc
      exact ⟨c₀, hbegun, hw.working, hw.story⟩, ih.kept, ih.excused⟩
  | doze _ dozes ih =>
    exact ⟨ih.ledger.dozed dozes, ih.registry, ih.lined, fun x c hc => by
      obtain ⟨c₀, hbegun, hw⟩ := ih.told x c hc
      exact ⟨c₀, hbegun, hw.working, hw.story⟩, fun x c hc key g hg => by
      rw [dozes.holdingsAt_eq] at hg
      exact ih.kept x c hc key g hg, ih.excused⟩

/-- No wake-up is lost: whoever can be served is awake. -/
theorem awake_of_serves (ho : Orderly past s) {key : Key} {slot : Slot}
    (found : s.slots.get? key = some slot) {ticket : Nat} (serves : slot.Serves ticket) :
    ticket ∈ slot.awake :=
  (ho.ledger.sound key slot found).alert ticket serves

theorem permits (ho : Orderly past s) :
    ∀ call c, s.callers.get? call = some c → 0 < c.type.capacity := by
  intro call c hc
  obtain ⟨c₀, hbegun, hw⟩ := ho.told call c hc
  rw [hw.story.keeps.1]
  exact hbegun.permits

/-- A call that has not done anything is as it was after the action of another. -/
theorem unused_act (ho : Orderly past s) {a : Action} (ha : ∀ x ∈ a.number?, Unused past s x)
    (hu : Unused past s call) (hne : call ∉ a.number?) :
    Unused (past ++ (s.act a).facts) (s.act a).service call := by
  cases a with
  | submit x request =>
    exact (Step.submit ho.registry (ha x rfl) request).unused hu fun heq => hne (heq ▸ rfl)
  | move x =>
    cases ht : s.move x with
    | none =>
      simp only [Service.act, ht, Option.getD_none, Service.rest, List.append_nil]
      exact hu
    | some t =>
      simp only [Service.act, ht, Option.getD_some]
      refine (Leads.move ho.permits ht).unused hu ?_
      rintro rfl
      simp [Service.move, hu.idle] at ht
  | pass d =>
    simp only [Service.act, List.append_nil]
    exact ⟨hu.silent, hu.idle⟩

/-- Every action is a few steps. -/
theorem leads_act (ho : Orderly past s) {a : Action} (ha : ∀ x ∈ a.number?, Unused past s x) :
    Leads (fun _ => True) past s (past ++ (s.act a).facts) (s.act a).service := by
  have hstart : Leads (fun _ => True) past s past s := .refl
  cases a with
  | submit x request => exact hstart.step trivial (.submit ho.registry (ha x rfl) request)
  | move x =>
    cases ht : s.move x with
    | none =>
      simp only [Service.act, ht, Option.getD_none, Service.rest, List.append_nil]
      exact hstart
    | some t =>
      simp only [Service.act, ht, Option.getD_some]
      exact (Leads.move ho.permits ht).mono fun _ _ => trivial
  | pass d =>
    simp only [Service.act, List.append_nil]
    exact hstart.pass d

/-- A run whose calls are new leads on, and other calls that are new stay so. -/
theorem leads_run (ho : Orderly past s) {as : List Action}
    (hn : (as.filterMap Action.number?).Nodup)
    (hu : ∀ x ∈ as.filterMap Action.number?, Unused past s x) :
    Leads (fun _ => True) past s (past ++ (s.run as).facts) (s.run as).service ∧
      ∀ x, Unused past s x → x ∉ as.filterMap Action.number? →
        Unused (past ++ (s.run as).facts) (s.run as).service x := by
  induction as generalizing past s with
  | nil =>
    simp only [Service.facts_run_nil, Service.service_run_nil, List.append_nil]
    exact ⟨.refl, fun _ hx _ => hx⟩
  | cons a as ih =>
    have ha : ∀ x ∈ a.number?, Unused past s x := by
      intro x hx
      refine hu x (List.mem_filterMap.2 ⟨a, List.mem_cons_self, hx⟩)
    have hfirst := ho.leads_act ha
    have hnodup : (as.filterMap Action.number?).Nodup ∧
        ∀ x ∈ as.filterMap Action.number?, x ∉ a.number? := by
      cases hnumber : a.number? with
      | none =>
        rw [List.filterMap_cons_none hnumber] at hn
        exact ⟨hn, fun x _ hx => by cases hx⟩
      | some y =>
        rw [List.filterMap_cons_some hnumber, List.nodup_cons] at hn
        refine ⟨hn.2, fun x hx hxy => ?_⟩
        cases hxy
        exact hn.1 hx
    have hmore := fun x hx => hu x (List.mem_filterMap.2 (by
      obtain ⟨b, hb, hbx⟩ := List.mem_filterMap.1 hx
      exact ⟨b, List.mem_cons_of_mem _ hb, hbx⟩))
    obtain ⟨hrest, hnew⟩ := ih (ho.leads hfirst) hnodup.1
      fun x hx => ho.unused_act ha (hmore x hx) (hnodup.2 x hx)
    rw [Service.facts_run_cons, Service.service_run_cons, ← List.append_assoc]
    refine ⟨hfirst.trans hrest, fun x hx hxn => ?_⟩
    rw [List.mem_filterMap] at hxn
    refine hnew x (ho.unused_act ha hx fun hxa => hxn ⟨a, List.mem_cons_self, hxa⟩) fun hxas => ?_
    obtain ⟨b, hb, hbx⟩ := List.mem_filterMap.1 hxas
    exact hxn ⟨b, List.mem_cons_of_mem _ hb, hbx⟩

end Orderly

namespace Service

theorem registerAll_ok {s s' : Service} {call : CallId} {ts : List ResourceType}
    (hr : s.registry.Sound) (h : (s.registerAll call ts).1 = .ok s') :
    ∃ registry : Registry, registry.Sound ∧ s' = { s with registry } := by
  induction ts generalizing s with
  | nil =>
    cases h
    exact ⟨_, hr, rfl⟩
  | cons t ts ih =>
    unfold registerAll at h
    split at h
    · cases h
    · rename_i registry previous hregister
      exact ih (s := { s with registry }) (hr.register hregister) h

/-- A new service knows some types, and nothing has happened to it. -/
theorem New.eq_empty {s : Service} (h : s.New) :
    ∃ (registry : Registry) (groupTimeout : GroupTimeout), registry.Sound ∧
      s = { empty with registry, groupTimeout } := by
  obtain ⟨call, c, hc⟩ := h
  have hempty : (empty.withGroupTimeout c.groupTimeout).registry.Sound :=
    fun name t ht => by cases ht
  obtain ⟨registry, hregistry, rfl⟩ := registerAll_ok hempty hc
  exact ⟨registry, c.groupTimeout, hregistry, rfl⟩

/-- A new service is in order. -/
theorem New.orderly {s : Service} (h : s.New) : Orderly [] s ∧ ∀ call, Unused [] s call := by
  obtain ⟨registry, groupTimeout, hregistry, rfl⟩ := h.eq_empty
  have hnone (x : CallId) : (∅ : Dict CallId Caller).get? x = none := rfl
  refine ⟨⟨.nil, hregistry, ?_, ?_, ?_, ?_⟩,
    fun x => ⟨fun f hf => absurd hf List.not_mem_nil, hnone x⟩⟩
  · intro key x ticket
    simp [lineAt, waits?, empty]
  · intro x c hx
    cases (hnone x).symm.trans hx
  · intro x c hx
    cases (hnone x).symm.trans hx
  · intro x c failed left e hx
    cases (hnone x).symm.trans hx

end Service

namespace History

variable {h : History}

theorem orderly (h : History) : Orderly h.facts h.service := by
  obtain ⟨hnew, hunused⟩ := h.isNew.orderly
  exact hnew.leads (hnew.leads_run h.numbered fun x _ => hunused x).1

/-- A history leads on from each of its moments. -/
theorem leads {before after : List Action} (ha : h.actions = before ++ after) :
    Leads (fun _ => True) (h.upTo ha).facts (h.upTo ha).service h.facts h.service := by
  obtain ⟨hnew, hunused⟩ := h.isNew.orderly
  have hnumbered := h.numbered
  rw [ha, List.filterMap_append, List.nodup_append] at hnumbered
  obtain ⟨hbefore, hafter, hdisjoint⟩ := hnumbered
  have hfirst := hnew.leads_run hbefore fun x _ => hunused x
  have hmoment := (hnew.leads hfirst.1).leads_run hafter fun x hx =>
    hfirst.2 x (hunused x) fun hxb => hdisjoint x hxb x hx rfl
  have hfacts :
      h.facts = (h.start.run before).facts ++ ((h.start.run before).service.run after).facts := by
    rw [facts, ha, Service.facts_run_append]
  have hservice : h.service = ((h.start.run before).service.run after).service := by
    rw [service, ha, Service.service_run_append]
  rw [hfacts, hservice]
  exact hmoment.1

/-- A call has done nothing before it is made. -/
theorem unused {before after : List Action} {call : CallId} {request : Request}
    (ha : h.actions = before ++ .submit call request :: after) :
    Unused (h.upTo ha).facts (h.upTo ha).service call := by
  obtain ⟨hnew, hunused⟩ := h.isNew.orderly
  have hbefore := (h.upTo ha).numbered
  refine (hnew.leads_run hbefore fun x _ => hunused x).2 call (hunused call) fun hmem => ?_
  obtain ⟨a, hmem, hnumber⟩ := List.mem_filterMap.1 hmem
  cases a with
  | submit x r =>
    cases hnumber
    exact (number_unique ha).1 r hmem
  | move | pass => cases hnumber

/-- Whoever makes a request has done nothing before. -/
theorem number_unused {before after : List Action} {a : Action}
    (ha : h.actions = before ++ a :: after) :
    ∀ x ∈ a.number?, Unused (h.upTo ha).facts (h.upTo ha).service x := by
  intro x hx
  cases a with
  | submit call request =>
    cases hx
    exact unused ha
  | move | pass => cases hx

end History

end FairLocks
