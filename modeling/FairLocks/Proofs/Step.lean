import FairLocks.Proofs.Story

/-!
# Steps

One call at a time takes a step. A new call either visits, which means that it asks for no permit
and is answered at once, or it starts as a caller; a caller advances until its last step answers it.
`Leads` strings steps together with what leaves no fact: a caller goes back to sleep, or time
passes. At each fact of such a run stands the step it comes from.
-/
namespace FairLocks

set_option autoImplicit false

/-- Each type is stored under its name and has permits. -/
def Registry.Sound (r : Registry) : Prop :=
  ∀ name t, r.types.get? name = some t → t.name = name ∧ 0 < t.capacity

/-- What a call that asks for no permit may leave. -/
def Deed.Visiting : Deed → Prop
  | registered _ _ => True
  | opened _ _ => False
  | queued _ _ _ _ => False
  | granted _ _ _ _ _ => False
  | gaveUp _ _ _ _ => False
  | returned _ _ _ => True
  | notReturned _ _ => False
  | rolledBack _ _ _ _ => False
  | evicted _ _ => True
  | announced _ _ _ => True
  | answered _ => True

/-- The call has not done anything yet. -/
structure Unused (past : List Fact) (s : Service) (call : CallId) : Prop where
  silent : ∀ f ∈ past, f.call ≠ call
  idle : s.callers.get? call = none

/-- The call did something and is not at work. -/
structure Gone (past : List Fact) (s : Service) (call : CallId) : Prop where
  acted : ∃ f ∈ past, f.call = call
  idle : s.callers.get? call = none

/-- The call asks for no permit and is answered at once. -/
structure Visit (s : Service) (call : CallId) (t : Turn) : Prop where
  facts : ∀ f ∈ t.facts, f.call = call ∧ f.deed.Visiting
  entries : Entries s.slots t.facts t.service.slots
  callers : t.service.callers = s.callers
  registry : s.registry.Sound → t.service.registry.Sound

inductive Step (past : List Fact) (s : Service) (call : CallId) : Turn → Prop
  | visit {t : Turn} (unused : Unused past s call) (visit : Visit s call t) : Step past s call t
  | engage {c : Caller} (unused : Unused past s call) (begun : c.Begun) :
      Step past s call ⟨{ s with callers := s.callers.insert call c }, []⟩
  | advance {c c' : Caller} {fs : List Fact} {d : Dict Key Slot}
      (working : s.callers.get? call = some c) (step : c.Advance call s.slots fs c')
      (entries : Entries s.slots fs d) :
      Step past s call ⟨{ s with slots := d, callers := s.callers.insert call c' }, fs⟩
  | finish {c : Caller} {fs : List Fact} {d : Dict Key Slot}
      (working : s.callers.get? call = some c) (ends : c.Ends call fs)
      (entries : Entries s.slots fs d) :
      Step past s call ⟨{ s with slots := d, callers := s.callers.erase call }, fs⟩

/-- Calls of the kind take steps, callers go back to sleep, and time passes, from the first state to
the second. -/
inductive Leads (who : CallId → Prop) (past : List Fact) (s : Service) : List Fact → Service → Prop
  | refl : Leads who past s past s
  | step {past' : List Fact} {s' : Service} {call : CallId} {t : Turn}
      (before : Leads who past s past' s') (allowed : who call) (step : Step past' s' call t) :
        Leads who past s (past' ++ t.facts) t.service
  | pass {past' : List Fact} {s' : Service} (before : Leads who past s past' s') (duration : Nat) :
      Leads who past s past' { s' with clock := s'.clock + duration }
  | doze {past' : List Fact} {s' : Service} {d : Dict Key Slot} (before : Leads who past s past' s')
      (dozes : Dozes s'.slots d) : Leads who past s past' { s' with slots := d }

namespace Step

variable {past : List Fact} {s : Service} {call : CallId} {t : Turn}

theorem mem_call (h : Step past s call t) : ∀ f ∈ t.facts, f.call = call := by
  cases h with
  | visit _ visit => exact fun f hf => (visit.facts f hf).1
  | engage => exact fun f hf => absurd hf List.not_mem_nil
  | advance _ step => exact step.mem_call
  | finish _ ends => exact ends.mem_call

theorem entries (h : Step past s call t) : Entries s.slots t.facts t.service.slots := by
  cases h with
  | visit _ visit => exact visit.entries
  | engage => exact .nil
  | advance _ _ entries => exact entries
  | finish _ _ entries => exact entries

/-- A step of one call leaves the other callers as they are. -/
theorem callers_of_ne (h : Step past s call t) {other : CallId} (hne : call ≠ other) :
    t.service.callers.get? other = s.callers.get? other := by
  cases h with
  | visit _ visit => rw [visit.callers]
  | engage | advance => exact Dict.get?_insert_of_ne _ _ hne
  | finish => exact Dict.get?_erase_of_ne _ hne

/-- A call that did something and is not at work takes no step. -/
theorem ne_of_gone (h : Step past s call t) {other : CallId}
    (hg : Gone past s other) : call ≠ other := by
  rintro rfl
  obtain ⟨f, hf, hcall⟩ := hg.acted
  cases h with
  | visit unused | engage unused => exact unused.silent f hf hcall
  | advance working | finish working =>
    rw [hg.idle] at working
    cases working

theorem unused (h : Step past s call t) {other : CallId} (hu : Unused past s other)
    (hne : call ≠ other) : Unused (past ++ t.facts) t.service other where
  silent := by
    intro f hf
    rcases List.mem_append.1 hf with hf | hf
    · exact hu.silent f hf
    · rw [h.mem_call f hf]
      exact hne
  idle := by rw [h.callers_of_ne hne, hu.idle]

theorem gone (h : Step past s call t) {other : CallId} (hg : Gone past s other) :
    Gone (past ++ t.facts) t.service other where
  acted := by
    obtain ⟨f, hf, hcall⟩ := hg.acted
    exact ⟨f, List.mem_append_left _ hf, hcall⟩
  idle := by rw [h.callers_of_ne (h.ne_of_gone hg), hg.idle]

end Step

namespace Leads

variable {who : CallId → Prop} {past past' past'' : List Fact} {s s' s'' : Service}

theorem trans (h : Leads who past s past' s') (h' : Leads who past' s' past'' s'') :
    Leads who past s past'' s'' := by
  induction h' with
  | refl => exact h
  | step _ allowed step ih => exact ih.step allowed step
  | pass _ duration ih => exact ih.pass duration
  | doze _ dozes ih => exact ih.doze dozes

theorem mono {who' : CallId → Prop} (h : Leads who past s past' s')
    (hwho : ∀ call, who call → who' call) :
    Leads who' past s past' s' := by
  induction h with
  | refl => exact .refl
  | step _ allowed step ih => exact ih.step (hwho _ allowed) step
  | pass _ duration ih => exact ih.pass duration
  | doze _ dozes ih => exact ih.doze dozes

theorem exists_append (h : Leads who past s past' s') : ∃ fs, past' = past ++ fs := by
  induction h with
  | refl => exact ⟨[], (List.append_nil _).symm⟩
  | @step _ _ _ t _ _ _ ih =>
    obtain ⟨fs, rfl⟩ := ih
    exact ⟨fs ++ t.facts, List.append_assoc ..⟩
  | pass _ _ ih | doze _ _ ih => exact ih

theorem unused (h : Leads who past s past' s') {call : CallId} (hu : Unused past s call)
    (hwho : ¬ who call) : Unused past' s' call := by
  induction h with
  | refl => exact hu
  | step _ allowed step ih => exact step.unused ih fun heq => hwho (heq ▸ allowed)
  | pass _ _ ih | doze _ _ ih => exact ⟨ih.silent, ih.idle⟩

/-- Nothing more comes from a call that is gone, and it has no permits but those it had. -/
theorem gone (h : Leads who past s past' s') {call : CallId} (hg : Gone past s call) :
    Gone past' s' call ∧ (∃ fs, past' = past ++ fs ∧ ∀ f ∈ fs, f.call ≠ call) ∧
      ∀ key g, g ∈ holdingsAt s'.slots key → g.grantee = call → g ∈ holdingsAt s.slots key := by
  induction h with
  | refl =>
    exact ⟨hg, ⟨[], (List.append_nil _).symm, fun f hf => absurd hf List.not_mem_nil⟩,
      fun _ _ h _ => h⟩
  | @step _ _ x t _ _ step ih =>
    obtain ⟨hg', ⟨fs, rfl, hfs⟩, hheld⟩ := ih
    have hne := step.ne_of_gone hg'
    refine ⟨step.gone hg', ⟨fs ++ t.facts, List.append_assoc .., ?_⟩, ?_⟩
    · intro f hf
      rcases List.mem_append.1 hf with hf | hf
      · exact hfs f hf
      · rw [step.mem_call f hf]
        exact hne
    · intro key g hheld' hgrantee
      have hother : g.grantee ≠ x := by
        rw [hgrantee]
        exact hne.symm
      exact hheld key g (step.entries.mem_holdings_of_ne step.mem_call hheld' hother) hgrantee
  | pass _ _ ih => exact ⟨⟨ih.1.acted, ih.1.idle⟩, ih.2⟩
  | doze _ dozes ih =>
    obtain ⟨hg', hfs, hheld⟩ := ih
    refine ⟨⟨hg'.acted, hg'.idle⟩, hfs, fun key g hg hgrantee => hheld key g ?_ hgrantee⟩
    rwa [dozes.holdingsAt_eq] at hg

/-- Each fact comes from a step, with everything before it in the past of that step. -/
theorem exists_step (h : Leads who past s past' s') {q r : List Fact} {f : Fact}
    (hq : past' = past ++ q ++ f :: r) :
    ∃ p s₁ call t before after, Leads who past s p s₁ ∧ Step p s₁ call t ∧
      t.facts = before ++ f :: after ∧ past ++ q = p ++ before ∧
      Leads who (p ++ t.facts) t.service past' s' := by
  induction h generalizing r with
  | refl =>
    rw [List.append_assoc, List.self_eq_append_right] at hq
    exact absurd hq (by simp)
  | @step p s₁ call t before allowed step ih =>
    rcases List.append_eq_append_iff.1 hq with ⟨m, hm, ht⟩ | ⟨m, hp, hm⟩
    · exact ⟨p, s₁, call, t, m, r, before, step, ht, hm, .refl⟩
    · cases m with
      | nil =>
        rw [List.append_nil] at hp
        exact ⟨p, s₁, call, t, [], r, before, step, hm.symm, by simp [hp], .refl⟩
      | cons g m =>
        obtain ⟨rfl, -⟩ := List.cons.inj hm
        obtain ⟨p', s₂, x, u, b, a, hbefore, hstep, hu, hpb, hafter⟩ := ih hp
        exact ⟨p', s₂, x, u, b, a, hbefore, hstep, hu, hpb, hafter.step allowed step⟩
  | pass _ duration ih =>
    obtain ⟨p, s₁, call, t, b, a, hbefore, hstep, ht, hpb, hafter⟩ := ih hq
    exact ⟨p, s₁, call, t, b, a, hbefore, hstep, ht, hpb, hafter.pass duration⟩
  | doze _ dozes ih =>
    obtain ⟨p, s₁, call, t, b, a, hbefore, hstep, ht, hpb, hafter⟩ := ih hq
    exact ⟨p, s₁, call, t, b, a, hbefore, hstep, ht, hpb, hafter.doze dozes⟩

end Leads

end FairLocks
