import Mathlib.Data.List.TakeWhile
import FairLocks.Proofs.Orderly

/-!
# What the listeners are told

A permit granted, a permit returned and a call rolled back are news. Whatever happens, each piece of
news has what the listeners are told of it right behind it, and they are told of nothing else. So a
listener hears, from its registration until its removal, the news of the name it is registered
under.
-/
namespace FairLocks

set_option autoImplicit false

/-- What the listeners are to be told of the fact. -/
def Fact.news? (f : Fact) : Option (EventKind × LockEvent) :=
  match f.deed with
  | .granted key _ _ party _ => some (.locked, ⟨key.1, key.2, party.listed⟩)
  | .returned key _ party => some (.unlocked, ⟨key.1, key.2, party.listed⟩)
  | .rolledBack typeName failed _ party => some (.rolledBack, ⟨typeName, failed, party.listed⟩)
  | _ => none

/-- What the listener is told by the fact. -/
def Fact.heard? (listener : CallId) (f : Fact) : Option (CallId × EventKind × LockEvent) :=
  match f.deed with
  | .announced l kind event => if l = listener then some (f.call, kind, event) else none
  | _ => none

/-- The news of this name, each with the call that brings it. -/
def newsOf (event : String) (fs : List Fact) : List (CallId × EventKind × LockEvent) :=
  fs.filterMap fun f => (f.news?.filter fun n => n.1.name = event).map fun n => (f.call, n)

/-- What the listener is told of, each time with the call that tells it. -/
def heard (listener : CallId) (fs : List Fact) : List (CallId × EventKind × LockEvent) :=
  fs.filterMap (Fact.heard? listener)

/-- The action removes the listener. -/
def Action.unlistens (l : CallId) : Action → Bool
  | .submit _ (.removeListener l') => decide (l' = l)
  | _ => false

theorem newsOf_append (event : String) (fs gs : List Fact) :
    newsOf event (fs ++ gs) = newsOf event fs ++ newsOf event gs :=
  List.filterMap_append

theorem heard_append (l : CallId) (fs gs : List Fact) :
    heard l (fs ++ gs) = heard l fs ++ heard l gs := List.filterMap_append

/-- A fact that tells nobody anything is not heard. -/
theorem heard_cons {l : CallId} {f : Fact}
    (own : ∀ listener kind event, f.deed ≠ .announced listener kind event) (fs : List Fact) :
    heard l (f :: fs) = heard l fs := by
  have hnone : f.heard? l = none := by
    obtain ⟨call, deed⟩ := f
    cases deed <;> first | rfl | exact absurd rfl (own _ _ _)
  rw [heard, List.filterMap_cons_none hnone, heard]

theorem Fact.own_of_news {f : Fact} {n : EventKind × LockEvent} (h : f.news? = some n) :
    ∀ listener kind event, f.deed ≠ .announced listener kind event := by
  intro listener kind event hdeed
  simp [news?, hdeed] at h

theorem newsOf_cons (event : String) (f : Fact) (fs : List Fact) :
    newsOf event (f :: fs) = newsOf event [f] ++ newsOf event fs :=
  newsOf_append event [f] fs

theorem newsOf_single {f : Fact} {kind : EventKind} {e : LockEvent} (h : f.news? = some (kind, e))
    (event : String) : newsOf event [f] = if kind.name =
      event then [(f.call, kind, e)] else [] := by
  by_cases hname : kind.name = event <;> simp [newsOf, h, Option.filter, hname]

theorem newsOf_eq_nil {event : String} {fs : List Fact} (h : ∀ f ∈ fs, f.news? = none) :
    newsOf event fs = [] := by
  refine List.filterMap_eq_nil_iff.2 fun f hf => ?_
  rw [h f hf]
  rfl

/-- The facts, with what the listeners are told right behind what it is about. -/
inductive Announced (tell : CallId → EventKind → LockEvent → List Fact) : List Fact → Prop
  | nil : Announced tell []
  | plain {f : Fact} {fs : List Fact} (quiet : f.news? = none)
      (own : ∀ listener kind event, f.deed ≠ .announced listener kind event)
      (more : Announced tell fs) :
      Announced tell (f :: fs)
  | news {f : Fact} {fs : List Fact} {kind : EventKind} {event : LockEvent}
      (news : f.news? = some (kind, event)) (more : Announced tell fs) :
      Announced tell (f :: (tell f.call kind event ++ fs))

namespace Announced

variable {tell : CallId → EventKind → LockEvent → List Fact} {fs gs : List Fact}

theorem append (h : Announced tell fs) (h' : Announced tell gs) : Announced tell (fs ++ gs) := by
  induction h with
  | nil => exact h'
  | plain quiet own _ ih => exact .plain quiet own ih
  | news news _ ih =>
    rw [List.cons_append, List.append_assoc]
    exact .news news ih

theorem answer (call : CallId) (reply : Reply) : Announced tell [⟨call, .answered reply⟩] :=
  .plain rfl (by simp) .nil

/-- News, and nothing but what is told of it. -/
theorem single {f : Fact} {kind : EventKind} {event : LockEvent}
    (h : f.news? = some (kind, event)) :
    Announced tell (f :: tell f.call kind event) := by
  have hnews : Announced tell (f :: (tell f.call kind event ++ [])) := .news h .nil
  rwa [List.append_nil] at hnews

end Announced

namespace Service

variable {s : Service} {call : CallId} {c : Caller} {t : Turn}

theorem announced_serve (s : Service) (call : CallId) (c : Caller) (id : ResourceId) (ticket : Nat)
    (budget : Option Nat) (slot : Slot) :
    Announced s.announce (s.serve call c id ticket budget slot).facts :=
  .single rfl

theorem announced_enter (s : Service) (call : CallId) (c : Caller) (id : ResourceId) :
    Announced s.announce (s.enter call c id).facts := by
  have hmade : Announced s.announce (s.slotFor call c.type id).2 := by
    unfold slotFor
    split
    · exact .nil
    · exact .plain rfl (by simp) .nil
  simp only [enter]
  split
  · exact hmade.append (.plain rfl (by simp) (announced_serve s call c id _ _ _))
  · exact hmade.append (.plain rfl (by simp) .nil)

theorem announced_giveUp (s : Service) (call : CallId) (c : Caller) (id : ResourceId) (ticket : Nat)
    (budget : Option Nat) (slot : Slot) :
    Announced s.announce (s.giveUp call c id ticket budget slot).facts := by
  simp only [giveUp]
  split
  · exact .plain rfl (by simp) .nil
  · exact .plain rfl (by simp) (.answer call _)

theorem announced_giveBack {key : Key} {party : Party} {p : Holding → Bool}
    (h : s.giveBack call key party p = .ok t) :
    Announced s.announce t.facts ∧ t.service.announce = s.announce := by
  unfold giveBack at h
  split at h
  · cases h
  · split at h
    · cases h
    · cases h
      exact ⟨.single rfl, rfl⟩

theorem announced_move (h : s.move call = some t) : Announced s.announce t.facts := by
  cases moved h with
  | succeeds => exact .answer call _
  | enters => exact announced_enter s call _ _
  | takes => exact announced_serve s call _ _ _ _ _
  | givesUp => exact announced_giveUp s call _ _ _ _ _
  | dozes => exact .nil
  | undoes =>
    simp only [undo]
    split
    · rename_i t ht
      exact (announced_giveBack ht).1
    · exact .plain rfl (by simp) .nil
  | undone =>
    unfold undone
    split
    · exact .answer call _
    · exact .news rfl (.answer call _)

theorem announced_giveBackAll (s : Service) (call : CallId) (typeName : String) (party : Party)
    (ids : List ResourceId) : Announced s.announce
      (s.giveBackAll call typeName party ids).facts := by
  induction ids generalizing s with
  | nil => exact .answer call _
  | cons id ids ih =>
    unfold giveBackAll
    split
    · exact .answer call _
    · rename_i t ht
      obtain ⟨hfirst, hsame⟩ := announced_giveBack ht
      have hmore := ih t.service
      rw [hsame] at hmore
      exact hfirst.append hmore

theorem announced_submit (s : Service) (call : CallId) (request : Request) :
    Announced s.announce (s.submit call request).facts := by
  have hengage (typeName : String) (ids : List ResourceId) (party : Party) (goal : Goal) :
      Announced s.announce (s.engage call typeName ids party goal).facts := by
    unfold engage
    split
    · exact .answer call _
    · exact .nil
  have hunlock (typeName : String) (ids : List ResourceId) (party : Party) :
      Announced s.announce (s.unlockAll call typeName ids party).facts := by
    unfold unlockAll
    split
    · exact .answer call _
    · exact announced_giveBackAll s call _ _ _
  cases request with
  | createType type =>
    simp only [submit, createType]
    split
    · exact .answer call _
    · exact .plain rfl (by simp) (.answer call _)
  | lock | lockMany | tryLock | tryLockMany | tryLockManyDetailed => exact hengage _ _ _ _
  | unlock | unlockMany => exact hunlock _ _ _
  | evictIdle => exact .plain rfl (by simp) (.answer call _)
  | findType | typeNames | groupTimeout | slotState | isLocked | slotCount | listen
  | removeListener =>
    exact .answer call _

/-- Whatever happens, the listeners are told of the news, each time at once, and of nothing else. -/
theorem announced_act (s : Service) (a : Action) : Announced s.announce (s.act a).facts := by
  cases a with
  | submit call request => exact announced_submit s call request
  | pass => exact .nil
  | move call =>
    cases ht : s.move call with
    | none =>
      rw [act, ht]
      exact .nil
    | some t =>
      rw [act_move ht]
      exact announced_move ht

end Service

/-- No two listeners have the same number, those there are have called, and the service looks for
them. -/
structure Attended (past : List Fact) (s : Service) : Prop where
  nodup : (s.listeners.map Listener.id).Nodup
  called : ∀ l ∈ s.listeners, ∃ f ∈ past, f.call = l.id
  listening : s.listeners ≠ [] → s.listening = true

section

variable {past : List Fact} {s : Service} {l : CallId} {event : String}

theorem heard_announce_of_ne (hl : ∀ x ∈ s.listeners, x.id ≠ l) (call : CallId) (kind : EventKind)
    (e : LockEvent) : heard l (s.announce call kind e) = [] := by
  refine List.filterMap_eq_nil_iff.2 fun f hf => ?_
  unfold Service.announce at hf
  split at hf
  · obtain ⟨x, hx, rfl⟩ := List.mem_map.1 hf
    exact if_neg (hl x (List.mem_filter.1 hx).1)
  · exact absurd hf List.not_mem_nil

/-- Of one piece of news the listener is told once if it is registered under its name, and else
not. -/
theorem Attended.heard_announce (h : Attended past s) (hl : ⟨l, event⟩ ∈ s.listeners)
    (call : CallId) (kind : EventKind) (e : LockEvent) :
    heard l (s.announce call kind e) = if kind.name = event then [(call, kind, e)] else [] := by
  have hlistening : s.listening = true := h.listening (List.ne_nil_of_mem hl)
  obtain ⟨before, after, hsplit⟩ := List.append_of_mem hl
  have hnodup := h.nodup
  rw [hsplit, List.map_append, List.map_cons, List.nodup_middle, List.nodup_cons, ← List.map_append]
    at hnodup
  -- the others in front of it and behind it have other numbers
  have hothers (xs : List Listener) (hxs : ∀ x ∈ xs, x ∈ before ++ after) :
      heard l ((xs.filter fun x => x.event = kind.name).map fun x =>
        ⟨call, .announced x.id kind e⟩) = [] := by
    refine List.filterMap_eq_nil_iff.2 fun f hf => ?_
    obtain ⟨x, hx, rfl⟩ := List.mem_map.1 hf
    have hmem : x.id ∈ (before ++ after).map Listener.id :=
      List.mem_map_of_mem (hxs x (List.mem_filter.1 hx).1)
    refine if_neg fun heq => hnodup.1 ?_
    rwa [heq] at hmem
  have hbefore := hothers before fun x hx => List.mem_append_left _ hx
  have hafter := hothers after fun x hx => List.mem_append_right _ hx
  rw [Service.announce, if_pos hlistening, hsplit, List.filter_append, List.map_append,
    heard_append, hbefore, List.nil_append]
  by_cases hname : kind.name = event
  · rw [List.filter_cons_of_pos (by simp [hname]), List.map_cons, if_pos hname, heard,
      List.filterMap_cons_some (show Fact.heard? l ⟨call, .announced l kind e⟩ = _ from if_pos rfl)]
    exact congrArg _ hafter
  · rw [List.filter_cons_of_neg (by simp [Ne.symm hname]), hafter, if_neg hname]

/-- A registered listener hears the news of its name. -/
theorem Attended.heard_eq (h : Attended past s) (hl : ⟨l, event⟩ ∈ s.listeners) {fs : List Fact}
    (hfs : Announced s.announce fs) : heard l fs = newsOf event fs := by
  induction hfs with
  | nil => rfl
  | @plain f fs quiet own _ ih =>
    have hquiet : newsOf event [f] = [] := newsOf_eq_nil fun g hg => List.mem_singleton.1 hg ▸ quiet
    rw [heard_cons own, newsOf_cons, hquiet, ih, List.nil_append]
  | @news f fs kind e news _ ih =>
    have htold : newsOf event (s.announce f.call kind e) = [] := by
      refine newsOf_eq_nil fun g hg => ?_
      obtain ⟨-, _, _, _, hdeed⟩ := Service.tells_announce s f.call kind e g hg
      rw [Fact.news?, hdeed]
    rw [heard_cons (Fact.own_of_news news), newsOf_cons, heard_append, newsOf_append, htold,
      h.heard_announce hl, newsOf_single news, ih, List.nil_append]

/-- Whoever is not registered hears nothing. -/
theorem heard_eq_nil (hl : ∀ x ∈ s.listeners, x.id ≠ l) {fs : List Fact}
    (hfs : Announced s.announce fs) : heard l fs = [] := by
  induction hfs with
  | nil => rfl
  | plain _ own _ ih => rw [heard_cons own, ih]
  | news news _ ih =>
    rw [heard_cons (Fact.own_of_news news), heard_append, heard_announce_of_ne hl, ih,
      List.nil_append]

end

/-- The listeners after an action: who registers comes last, who is removed goes, and the rest
stay. -/
theorem Service.listeners_act (s : Service) (a : Action) :
    ((s.act a).service.listeners = s.listeners ∧ (s.act a).service.listening = s.listening) ∨
    (∃ call event, a = .submit call (.listen event) ∧
      (s.act a).service.listeners = s.listeners ++ [⟨call, event⟩] ∧
        (s.act a).service.listening = true) ∨
    ∃ call l, a = .submit call (.removeListener l) ∧
      (s.act a).service.listeners = s.listeners.filter (·.id ≠ l) ∧
      (s.act a).service.listening = s.listening := by
  cases a with
  | pass d => exact .inl ⟨rfl, rfl⟩
  | move call =>
    cases ht : s.move call with
    | none =>
      rw [act, ht]
      exact .inl ⟨rfl, rfl⟩
    | some t =>
      obtain ⟨slots, callers, hframe⟩ := (moved ht).frame
      rw [act_move ht, hframe]
      exact .inl ⟨rfl, rfl⟩
  | submit call request =>
    rw [act]
    rcases frame_submit s call request with ⟨slots, callers, hframe⟩ | ⟨type, registry, -, hframe⟩ |
      ⟨event, rfl, -⟩ | ⟨l, rfl, -⟩
    · rw [hframe]
      exact .inl ⟨rfl, rfl⟩
    · rw [hframe]
      exact .inl ⟨rfl, rfl⟩
    · exact .inr (.inl ⟨call, event, rfl, rfl, rfl⟩)
    · exact .inr (.inr ⟨call, l, rfl, rfl, rfl⟩)

namespace Attended

variable {past : List Fact} {s : Service}

theorem act (h : Attended past s) {a : Action} (hu : ∀ x ∈ a.number?, Unused past s x) :
    Attended (past ++ (s.act a).facts) (s.act a).service := by
  have hlonger {x : CallId} (hcalled : ∃ f ∈ past, f.call = x) :
      ∃ f ∈ past ++ (s.act a).facts, f.call = x := by
    obtain ⟨f, hf, hcall⟩ := hcalled
    exact ⟨f, List.mem_append_left _ hf, hcall⟩
  rcases s.listeners_act a with ⟨hsame, hlistening⟩ | ⟨call, event, rfl, hmore, hlistening⟩ |
    ⟨call, l, rfl, hless, hlistening⟩
  · refine ⟨?_, ?_, ?_⟩
    · rw [hsame]
      exact h.nodup
    · rw [hsame]
      exact fun l hl => hlonger (h.called l hl)
    · rw [hsame, hlistening]
      exact h.listening
  · refine ⟨?_, ?_, fun _ => hlistening⟩
    · rw [hmore, List.map_append]
      refine List.nodup_append.2 ⟨h.nodup, List.nodup_singleton _, fun x hx y hy => ?_⟩
      -- whoever registers now has not called before
      obtain ⟨l, hl, rfl⟩ := List.mem_map.1 hx
      obtain ⟨f, hf, hcall⟩ := h.called l hl
      rw [List.mem_singleton.1 hy, ← hcall]
      exact (hu call rfl).silent f hf
    · intro l hl
      rw [hmore] at hl
      rcases List.mem_append.1 hl with hl | hl
      · exact hlonger (h.called l hl)
      · rw [List.mem_singleton.1 hl]
        exact ⟨_, List.mem_append_right _ List.mem_cons_self, rfl⟩
  · have hsub : (s.listeners.filter (·.id ≠ l)).Sublist s.listeners := List.filter_sublist
    refine ⟨?_, ?_, ?_⟩
    · rw [hless]
      exact h.nodup.sublist (hsub.map _)
    · rw [hless]
      exact fun x hx => hlonger (h.called x (hsub.subset hx))
    · rw [hless, hlistening]
      intro hne
      refine h.listening fun hnil => hne ?_
      rw [hnil, List.filter_nil]

end Attended

namespace History

variable {h : History} {before mid after : List Action} {l : CallId} {event : String}

theorem attended (h : History) : Attended h.facts h.service := by
  have hprefix : ∀ before after, h.actions = before ++ after →
      Attended (h.start.run before).facts (h.start.run before).service := by
    intro before
    induction before using List.reverseRecOn with
    | nil =>
      intro after _
      obtain ⟨registry, groupTimeout, -, hstart⟩ := h.isNew.eq_empty
      rw [hstart]
      exact ⟨List.nodup_nil, fun l hl => absurd hl List.not_mem_nil, fun hne => absurd rfl hne⟩
    | append_singleton before a ih =>
      intro after ha
      rw [List.append_assoc, List.singleton_append] at ha
      have hnext := (ih _ ha).act (number_unused ha)
      rw [Service.facts_run_snoc, Service.service_run_snoc]
      exact hnext
  exact hprefix h.actions [] (List.append_nil _).symm

/-- While it is registered, a listener hears the news of its name. -/
theorem heard_of_registered (ha : h.actions = before ++ mid ++ after)
    (hl : ⟨l, event⟩ ∈ (h.start.run before).service.listeners)
    (hstays : ∀ a ∈ mid, a.unlistens l = false) :
    heard l ((h.start.run before).service.run mid).facts =
      newsOf event ((h.start.run before).service.run mid).facts := by
  induction mid generalizing before with
  | nil => rfl
  | cons a mid ih =>
    have ha' : h.actions = before ++ a :: (mid ++ after) := by
      rw [ha, List.append_assoc, List.cons_append]
    have hnext : h.actions = (before ++ [a]) ++ mid ++ after := by simp [ha]
    have hattended : Attended _ (h.start.run before).service := (h.upTo ha').attended
    have hrun := Service.service_run_snoc h.start before a
    have hregistered : ⟨l, event⟩ ∈ ((h.start.run before).service.act a).service.listeners := by
      rcases (h.start.run before).service.listeners_act a with ⟨hsame, -⟩ | ⟨_, _, -, hmore, -⟩ |
        ⟨call, x, rfl, hless, -⟩
      · rwa [hsame]
      · rw [hmore]
        exact List.mem_append_left _ hl
      · have hne : x ≠ l := of_decide_eq_false (hstays _ List.mem_cons_self)
        rw [hless]
        exact List.mem_filter.2 ⟨hl, decide_eq_true hne.symm⟩
    rw [← hrun] at hregistered
    have hmore := ih hnext hregistered fun b hb => hstays b (List.mem_cons_of_mem _ hb)
    rw [hrun] at hmore
    rw [Service.facts_run_cons, heard_append, newsOf_append, hmore,
      hattended.heard_eq hl (Service.announced_act _ a)]

/-- Whoever is not registered and does not register hears nothing. -/
theorem heard_of_unregistered (s : Service) (hl : ∀ x ∈ s.listeners, x.id ≠ l)
    (hnever : ∀ event, .submit l (.listen event) ∉ mid) : heard l (s.run mid).facts = [] := by
  induction mid generalizing s with
  | nil => rfl
  | cons a mid ih =>
    have hstill : ∀ x ∈ (s.act a).service.listeners, x.id ≠ l := by
      rcases s.listeners_act a with ⟨hsame, -⟩ | ⟨call, event, rfl, hmore, -⟩ |
        ⟨call, y, rfl, hless, -⟩
      · rwa [hsame]
      · intro x hx
        rw [hmore] at hx
        rcases List.mem_append.1 hx with hx | hx
        · exact hl x hx
        · rw [List.mem_singleton.1 hx]
          exact fun heq => hnever event (heq ▸ List.mem_cons_self)
      · intro x hx
        rw [hless] at hx
        exact hl x (List.mem_filter.1 hx).1
    rw [Service.facts_run_cons, heard_append, heard_eq_nil hl (s.announced_act a),
      ih _ hstill fun event hmem => hnever event (List.mem_cons_of_mem _ hmem), List.nil_append]

/-- A listener hears the news of its name from its registration until its removal. -/
theorem heard_of_listen (ha : h.actions = before ++ .submit l (.listen event) :: after) :
    heard l h.facts = newsOf event
      ((h.start.run (before ++ [.submit l (.listen event)])).service.run
        (after.takeWhile fun a => !a.unlistens l)).facts := by
  have hsplit := List.takeWhile_append_dropWhile (p := fun a => !Action.unlistens l a) (l := after)
  generalize hmid : after.takeWhile (fun a => !Action.unlistens l a) = mid at hsplit
  generalize hrest : after.dropWhile (fun a => !Action.unlistens l a) = rest at hsplit
  obtain ⟨hbefore, hafter⟩ := number_unique ha
  have ha' : h.actions = (before ++ [.submit l (.listen event)]) ++ mid ++ rest := by
    simp [ha, ← hsplit]
  generalize hstart : (h.start.run (before ++ [.submit l (.listen event)])).service = s
  -- nobody is registered under a number before it is used
  have hfirst : heard l (h.start.run (before ++ [.submit l (.listen event)])).facts = [] := by
    obtain ⟨registry, groupTimeout, -, hnew⟩ := h.isNew.eq_empty
    have hnone : ∀ x ∈ h.start.listeners, x.id ≠ l := by
      rw [hnew]
      exact fun x hx => absurd hx List.not_mem_nil
    rw [Service.facts_run_append, heard_append, heard_of_unregistered _ hnone fun e => hbefore _]
    rfl
  have hregistered : ⟨l, event⟩ ∈ s.listeners := by
    rw [← hstart, Service.service_run_append]
    exact List.mem_append_right _ List.mem_cons_self
  have hheard : heard l (s.run mid).facts = newsOf event (s.run mid).facts := by
    rw [← hstart] at hregistered ⊢
    refine heard_of_registered ha' hregistered fun a hmem => ?_
    rw [← hmid] at hmem
    simpa using List.mem_takeWhile_imp hmem
  -- once it is removed it does not come again
  have hlast : heard l ((s.run mid).service.run rest).facts = [] := by
    cases rest with
    | nil => rfl
    | cons a rest =>
      have hremoves : a.unlistens l = true := by
        have hhead := List.head?_dropWhile_not (fun a => !Action.unlistens l a) after
        rw [hrest] at hhead
        simpa using hhead
      obtain ⟨call, rfl⟩ : ∃ call, a = .submit call (.removeListener l) := by
        unfold Action.unlistens at hremoves
        split at hremoves
        · rename_i call l'
          exact ⟨call, by rw [of_decide_eq_true hremoves]⟩
        · cases hremoves
      have hgone :
        ∀ x ∈ ((s.run mid).service.act (.submit call (.removeListener l))).service.listeners,
          x.id ≠ l := fun x hx => of_decide_eq_true (List.mem_filter.1 hx).2
      have hnever : ∀ e, .submit l (.listen e) ∉ rest := by
        intro e hmem
        refine hafter (.listen e) ?_
        rw [← hsplit]
        exact List.mem_append_right _ (List.mem_cons_of_mem _ hmem)
      rw [Service.facts_run_cons, heard_append, heard_of_unregistered _ hgone hnever,
        List.append_nil]
      rfl
  rw [facts, ha', List.append_assoc, Service.facts_run_append, heard_append, hfirst, hstart,
    Service.facts_run_append, heard_append, hheard, hlast, List.append_nil, List.nil_append]

end History

end FairLocks
