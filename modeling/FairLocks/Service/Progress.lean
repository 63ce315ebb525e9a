import FairLocks.Service.Run

/-!
# Moves come to an end

What a call does when it moves is decided by its stage. Every move but one leaves its caller less to
do and no other caller more, though it may wake others; by the one that is left out a caller that
was woken goes back to sleep. So callers that are left to themselves stop after finitely many moves:
`settle` ends where nobody has a move, and `drive` where the call has none.
-/
namespace FairLocks

variable {s : Service} {call : CallId}

/-- What a call does when it moves. -/
inductive Moved (s : Service) (call : CallId) : Turn → Prop
  | succeeds {c : Caller} (working : s.callers.get? call = some c) (stage : c.stage = .next)
      (done : c.rest = []) : Moved s call (s.finish call (.ok c.goal.success))
  | enters {c : Caller} {id : ResourceId} {rest : List ResourceId}
      (working : s.callers.get? call = some c) (stage : c.stage = .next)
      (next : c.rest = id :: rest) :
      Moved s call (s.enter call { c with rest } id)
  | takes {c : Caller} {id : ResourceId} {ticket : Nat} {budget deadline : Option Nat} {slot : Slot}
      (working : s.callers.get? call = some c)
      (stage : c.stage = .waiting id ticket budget deadline)
      (found : s.slots.get? (c.keyOf id) = some slot) (serves : slot.Serves ticket)
      (woken : ticket ∈ slot.awake ∨ ∃ d, deadline = some d ∧ d ≤ s.clock) :
      Moved s call (s.serve call c id ticket budget slot)
  | givesUp {c : Caller} {id : ResourceId} {ticket : Nat} {budget deadline : Option Nat}
      {slot : Slot} (working : s.callers.get? call = some c)
      (stage : c.stage = .waiting id ticket budget deadline)
      (found : s.slots.get? (c.keyOf id) = some slot) (waits : ¬ slot.Serves ticket)
      (late : ∃ d, deadline = some d ∧ d ≤ s.clock) :
      Moved s call (s.giveUp call c id ticket budget slot)
  | dozes {c : Caller} {id : ResourceId} {ticket : Nat} {budget deadline : Option Nat} {slot : Slot}
      (working : s.callers.get? call = some c)
      (stage : c.stage = .waiting id ticket budget deadline)
      (found : s.slots.get? (c.keyOf id) = some slot) (waits : ¬ slot.Serves ticket)
      (early : ∀ d, deadline = some d → s.clock < d) (woken : ticket ∈ slot.awake) :
      Moved s call (s.doze c id ticket slot)
  | undoes {c : Caller} {failed : ResourceId} {member : ResourceId × Nat}
      {left : List (ResourceId × Nat)} {error : Option LockError}
      (working : s.callers.get? call = some c)
      (stage : c.stage = .undoing failed (member :: left) error) :
      Moved s call (s.undo call c failed member left error)
  | undone {c : Caller} {failed : ResourceId} {error : Option LockError}
      (working : s.callers.get? call = some c) (stage : c.stage = .undoing failed [] error) :
      Moved s call (s.undone call c failed error)

theorem moved {t : Turn} (h : s.move call = some t) : Moved s call t := by
  unfold Service.move at h
  split at h
  · cases h
  · rename_i c working
    split at h
    · rename_i stage done
      cases h
      exact .succeeds working stage done
    · rename_i id rest stage next
      cases h
      exact .enters working stage next
    · rename_i id ticket budget deadline _ stage
      unfold Service.resume at h
      split at h
      · cases h
      · rename_i slot found
        simp only [Option.any_eq_true, decide_eq_true_eq] at h
        split at h
        · rename_i woken
          split at h
          · rename_i serves
            cases h
            exact .takes working stage found serves woken
          · rename_i waits
            split at h
            · rename_i late
              cases h
              exact .givesUp working stage found waits late
            · rename_i early
              cases h
              exact .dozes working stage found waits
                (fun d hd => Nat.lt_of_not_le fun hle => early ⟨d, hd, hle⟩)
                (woken.resolve_right early)
        · cases h
    · rename_i failed member left error _ stage
      cases h
      exact .undoes working stage
    · rename_i failed error _ stage
      cases h
      exact .undone working stage

namespace Service

section

variable {c : Caller} {id : ResourceId} {ticket : Nat} {budget deadline : Option Nat} {slot : Slot}

/-- Who is awake and can be served takes a permit. -/
theorem resume_of_serves (found : s.slots.get? (c.keyOf id) = some slot)
    (serves : slot.Serves ticket) (awake : ticket ∈ slot.awake) :
    s.resume call c id ticket budget deadline = some (s.serve call c id ticket budget slot) := by
  simp only [resume, found, if_pos (Or.inl awake), if_pos serves]

/-- Who cannot be served gives up, awake or not, once its deadline has passed. -/
theorem resume_of_late (found : s.slots.get? (c.keyOf id) = some slot)
    (waits : ¬ slot.Serves ticket) (late : deadline.any (· ≤ s.clock) = true) :
    s.resume call c id ticket budget deadline = some (s.giveUp call c id ticket budget slot) := by
  simp only [resume, found, if_neg waits, late, or_true, if_true]

/-- Who can neither be served nor give up goes back to sleep, if it is awake. -/
theorem resume_of_waits (found : s.slots.get? (c.keyOf id) = some slot)
    (waits : ¬ slot.Serves ticket) (early : deadline.any (· ≤ s.clock) = false) :
    s.resume call c id ticket budget deadline =
      if ticket ∈ slot.awake then some (s.doze c id ticket slot) else none := by
  simp only [resume, found, early, Bool.false_eq_true, or_false, if_neg waits, if_false]

/-- No deadline has passed, or there is none. -/
theorem early_iff {clock : Nat} :
    (∀ d, deadline = some d → clock < d) ↔ deadline.any (· ≤ clock) = false := by
  simp [Option.any_eq_false]

/-- Who sleeps has no move while its deadline is still to come, and only then. -/
theorem resume_eq_none_iff (found : s.slots.get? (c.keyOf id) = some slot) :
    s.resume call c id ticket budget deadline = none ↔
      ticket ∉ slot.awake ∧ ∀ d, deadline = some d → s.clock < d := by
  rw [early_iff]
  by_cases serves : slot.Serves ticket
  · simp [resume, found, serves]
  · cases hlate : deadline.any (· ≤ s.clock) with
    | true => simp [resume_of_late found serves hlate]
    | false => simp [resume_of_waits found serves hlate]

end

/-- If less is left to the callers, it makes no difference how many of them are awake. -/
theorem work_lt_of_total {s s' : Service} (hsize : s'.callers.size ≤ s.callers.size)
    (htotal : s'.callers.total Caller.work < s.callers.total Caller.work) : s'.work < s.work := by
  have hawake : (s'.callers.filter fun _ c => s'.isAwake c).size ≤ s'.callers.size :=
    List.length_filter_le _ _
  calc s'.work
      < s'.callers.total Caller.work * (s'.callers.size + 1) + (s'.callers.size + 1) :=
        Nat.add_lt_add_left (Nat.lt_succ_of_le hawake) _
    _ = (s'.callers.total Caller.work + 1) * (s'.callers.size + 1) := (Nat.succ_mul _ _).symm
    _ ≤ s.callers.total Caller.work * (s.callers.size + 1) :=
        Nat.mul_le_mul htotal (Nat.succ_le_succ hsize)
    _ ≤ s.work := Nat.le_add_right _ _

theorem work_of_insert {s' : Service} {c c' : Caller} (hc : s.callers.get? call = some c)
    (hs' : s'.callers = s.callers.insert call c') (hlt : c'.work < c.work) : s'.work < s.work := by
  have h := s.callers.total_insert Caller.work call c'
  rw [hc] at h
  simp only [Option.map_some, Option.getD_some] at h
  refine work_lt_of_total ?_ ?_
  · exact Nat.le_of_eq (by rw [hs', Dict.size_insert_of_get? _ hc])
  · rw [hs']
    omega

theorem work_of_erase {s' : Service} {c : Caller} (hc : s.callers.get? call = some c)
    (hs' : s'.callers = s.callers.erase call) (hpos : 0 < c.work) : s'.work < s.work := by
  have h := s.callers.total_erase Caller.work call
  rw [hc] at h
  simp only [Option.map_some, Option.getD_some] at h
  refine work_lt_of_total ?_ ?_
  · rw [hs']
    exact List.length_filter_le _ _
  · rw [hs']
    omega

/-- A caller that goes back to sleep is no longer awake, and nobody else is woken. -/
theorem work_doze {c : Caller} {id : ResourceId} {ticket : Nat} {budget deadline : Option Nat}
    {slot : Slot}
    (hc : s.callers.get? call = some c) (stage : c.stage = .waiting id ticket budget deadline)
    (found : s.slots.get? (c.keyOf id) = some slot) (woken : ticket ∈ slot.awake) :
    (s.doze c id ticket slot).service.work < s.work := by
  have hawake : s.isAwake c = true := by
    simp only [isAwake, stage, found, Option.any_some, decide_eq_true_eq]
    exact woken
  have hasleep : (s.doze c id ticket slot).service.isAwake c = false := by
    simp [isAwake, stage, doze, Slot.doze]
  have hless (c' : Caller) (h : (s.doze c id ticket slot).service.isAwake c' = true) :
      s.isAwake c' = true := by
    unfold isAwake at h ⊢
    split at h
    · rename_i id' ticket' _ _ _
      simp only [doze, Dict.get?_insert] at h
      split at h
      · rename_i hkey
        rw [← hkey, found]
        simp only [Option.any_some, Slot.doze, List.mem_filter, decide_eq_true_eq] at h ⊢
        exact h.1
      · exact h
    · cases h
  have hfilter : (s.callers.entries.filter fun e => (s.doze c id ticket slot).service.isAwake e.2) =
      (s.callers.entries.filter fun e => s.isAwake e.2).filter
        fun e => (s.doze c id ticket slot).service.isAwake e.2 := by
    rw [List.filter_filter]
    refine List.filter_congr fun e _ => ?_
    cases h : (s.doze c id ticket slot).service.isAwake e.2 with
    | false => rfl
    | true => rw [hless e.2 h, Bool.and_self]
  have hmem : (call, c) ∈ s.callers.entries.filter fun e => s.isAwake e.2 :=
    List.mem_filter.2 ⟨Dict.mem_entries_of_get? hc, hawake⟩
  have hshorter : (s.callers.filter fun _ c' => (s.doze c id ticket slot).service.isAwake c').size <
      (s.callers.filter fun _ c' => s.isAwake c').size := by
    simp only [Dict.size, Dict.filter, hfilter]
    exact List.length_filter_lt_length_iff_exists.2 ⟨_, hmem, by simp [hasleep]⟩
  exact Nat.add_lt_add_left hshorter _

theorem work_pos (c : Caller) : 0 < c.work := by
  unfold Caller.work
  split <;> omega

theorem work_of_next {c : Caller} (stage : c.stage = .next) :
    c.work = 3 * c.rest.length + c.taken.length + 2 := by
  simp [Caller.work, stage]

theorem work_of_waiting {c : Caller} {id : ResourceId} {ticket : Nat} {budget deadline : Option Nat}
    (stage : c.stage = .waiting id ticket budget deadline) :
    c.work = 3 * c.rest.length + c.taken.length + 4 := by
  simp [Caller.work, stage]

theorem work_of_undoing {c : Caller} {failed : ResourceId} {left : List (ResourceId × Nat)}
    {error : Option LockError} (stage : c.stage = .undoing failed left error) :
    c.work = left.length + 1 := by
  simp [Caller.work, stage]

theorem callers_of_giveBack {key : Key} {party : Party} {p : Holding → Bool} {t : Turn}
    (h : s.giveBack call key party p = .ok t) : t.service.callers = s.callers := by
  unfold giveBack at h
  split at h
  · cases h
  · split at h
    · cases h
    · cases h
      rfl

end Service

/-- A move leaves less to do. -/
theorem Moved.work_lt {t : Turn} (h : Moved s call t) : t.service.work < s.work := by
  cases h with
  | succeeds working => exact Service.work_of_erase working rfl (Service.work_pos _)
  | @enters c id rest working stage next =>
    have hwork := Service.work_of_next stage
    rw [next, List.length_cons] at hwork
    simp only [Service.enter]
    split
    · refine Service.work_of_insert working rfl ?_
      rw [hwork, Service.work_of_next rfl]
      simp only [List.length_append, List.length_singleton]
      omega
    · refine Service.work_of_insert working rfl ?_
      rw [hwork, Service.work_of_waiting rfl]
      dsimp only
      omega
  | takes working stage =>
    refine Service.work_of_insert working rfl ?_
    rw [Service.work_of_waiting stage, Service.work_of_next rfl]
    simp only [List.length_append, List.length_singleton]
    omega
  | givesUp working stage =>
    simp only [Service.giveUp]
    split
    · refine Service.work_of_insert working rfl ?_
      rw [Service.work_of_waiting stage, Service.work_of_undoing rfl]
      omega
    · exact Service.work_of_erase working rfl (Service.work_pos _)
  | dozes working stage found _ _ woken => exact Service.work_doze working stage found woken
  | @undoes c failed member left error working stage =>
    have hless (error : Option LockError) :
        { c with stage := .undoing failed left error }.work < c.work := by
      rw [Service.work_of_undoing stage, Service.work_of_undoing rfl, List.length_cons]
      omega
    simp only [Service.undo]
    split
    · rename_i u hu
      exact Service.work_of_insert working (by rw [Service.callers_of_giveBack hu]) (hless error)
    · exact Service.work_of_insert working rfl (hless _)
  | undone working =>
    unfold Service.undone
    split <;> exact Service.work_of_erase working rfl (Service.work_pos _)

namespace Service

theorem work_lt_of_move {t : Turn} (h : s.move call = some t) : t.service.work < s.work :=
  (moved h).work_lt

/-- The work that is left is told by what is left to each caller, and by who is awake. -/
theorem work_congr {s s' : Service}
    (h : (s.callers.entries.map fun e => (e.2.work, s.isAwake e.2)) =
      s'.callers.entries.map fun e => (e.2.work, s'.isAwake e.2)) :
    s.work = s'.work := by
  have hwork (s : Service) : s.work =
      ((s.callers.entries.map fun e => (e.2.work, s.isAwake e.2)).map Prod.fst).foldr (· + ·) 0 *
          ((s.callers.entries.map fun e => (e.2.work, s.isAwake e.2)).length + 1) +
        ((s.callers.entries.map fun e => (e.2.work, s.isAwake e.2)).filter Prod.snd).length := by
    rw [List.map_map, List.foldr_map, List.length_map, List.filter_map, List.length_map]
    rfl
  rw [hwork, hwork, h]

/-- The next deadline is told by that of each caller. -/
theorem nextDeadline?_congr {s s' : Service}
    (h : (s.callers.entries.map fun e => e.2.deadline?) =
      s'.callers.entries.map fun e => e.2.deadline?) :
    s.nextDeadline? = s'.nextDeadline? := by
  have hdeadlines (d : Dict CallId Caller) : (d.entries.filterMap fun e => e.2.deadline?) =
      (d.entries.map fun e => e.2.deadline?).filterMap id := by
    rw [List.filterMap_map]
    rfl
  rw [nextDeadline?, nextDeadline?, hdeadlines, hdeadlines, h]

theorem firstMove_eq_none_iff {s : Service} : s.firstMove = none ↔ s.Settled :=
  List.findSome?_eq_none_iff

theorem exists_move_of_firstMove {s : Service} {t : Turn} (h : s.firstMove = some t) :
    ∃ call, s.move call = some t := by
  obtain ⟨call, _, ht⟩ := List.exists_of_findSome?_eq_some h
  exact ⟨call, ht⟩

section

-- Calls move, a bounded number of times, each time by the move that is chosen.
variable {choose : Service → Option Turn} {within : Nat → Service → Turn}
  (hzero : ∀ s, within 0 s = s.rest)
  (hsucc : ∀ n s, within (n + 1) s = match choose s with
    | none => s.rest
    | some t => t.andThen (within n))
  (hless : ∀ {s t}, choose s = some t → t.service.work < s.work)

include hzero hsucc hless

/-- With as many moves as are left, no more is to be had in the end. -/
theorem choose_within {n : Nat} {s : Service} (hn : s.work ≤ n) :
    choose (within n s).service = none := by
  induction n generalizing s with
  | zero =>
    rw [hzero]
    change choose s = none
    refine Option.eq_none_iff_forall_ne_some.2 fun t ht => ?_
    have := hless ht
    omega
  | succ n ih =>
    rw [hsucc]
    split
    · assumption
    · rename_i t ht
      have := hless ht
      exact ih (by omega)

/-- Beyond the work that is left it makes no difference how many moves are allowed. -/
theorem within_congr {n m : Nat} {s : Service} (hn : s.work ≤ n) (hm : s.work ≤ m) :
    within n s = within m s := by
  have hover {s : Service} (hnone : choose s = none) (k : Nat) : within k s = s.rest := by
    cases k with
    | zero => exact hzero s
    | succ k => rw [hsucc, hnone]
  induction n generalizing s m with
  | zero =>
    have hnone : choose s = none := by
      have hend := choose_within hzero hsucc hless hn
      rwa [hzero, rest] at hend
    rw [hover hnone, hover hnone]
  | succ n ih =>
    cases hchoose : choose s with
    | none => rw [hover hchoose, hover hchoose]
    | some t =>
      have := hless hchoose
      obtain ⟨m, rfl⟩ : ∃ k, m = k + 1 := ⟨m - 1, by omega⟩
      have hmore : within n t.service = within m t.service := ih (by omega) (by omega)
      simp only [hsucc, hchoose, Turn.andThen, hmore]

/-- With all the moves that are left, the first comes before the others. -/
theorem within_of_choose {s : Service} {t : Turn} (h : choose s = some t) :
    within s.work s = t.andThen fun s => within s.work s := by
  have hmore : within s.work t.service = within t.service.work t.service :=
    within_congr hzero hsucc hless (Nat.le_of_lt (hless h)) (Nat.le_refl _)
  rw [within_congr hzero hsucc hless (Nat.le_refl _) (Nat.le_succ s.work), hsucc, h]
  simp only [Turn.andThen, hmore]

end

theorem work_lt_of_firstMove {s : Service} {t : Turn} (h : s.firstMove = some t) :
    t.service.work < s.work := by
  obtain ⟨call, hcall⟩ := exists_move_of_firstMove h
  exact work_lt_of_move hcall

theorem settled_settleWithin {n : Nat} {s : Service} (hn : s.work ≤ n) :
    (settleWithin n s).service.Settled :=
  firstMove_eq_none_iff.1 (@choose_within firstMove settleWithin (fun _ => rfl) (fun _ _ => rfl)
    work_lt_of_firstMove n s hn)

/-- After `settle` nobody has a move. -/
theorem settled_settle (s : Service) : s.settle.service.Settled :=
  settled_settleWithin (Nat.le_refl _)

theorem move_driveWithin {call : CallId} {n : Nat} {s : Service} (hn : s.work ≤ n) :
    (driveWithin call n s).service.move call = none :=
  @choose_within (fun s => s.move call) (driveWithin call) (fun _ => rfl)
    (fun _ _ => rfl) work_lt_of_move n s hn

/-- It makes no difference if more moves are allowed than are left. -/
theorem driveWithin_of_work_le {s : Service} {call : CallId} {n : Nat} (hn : s.work ≤ n) :
    driveWithin call n s = s.drive call :=
  @within_congr (fun s => s.move call) (driveWithin call) (fun _ => rfl)
    (fun _ _ => rfl) work_lt_of_move n
    s.work s hn (Nat.le_refl _)

/-- Callers settle by the first move and those that follow. -/
theorem settle_of_firstMove {s : Service} {t : Turn} (h : s.firstMove = some t) :
    s.settle = t.andThen settle :=
  @within_of_choose firstMove settleWithin (fun _ => rfl) (fun _ _ => rfl)
    work_lt_of_firstMove s t h

/-- A call that has a move is driven by it and by the moves that follow. -/
theorem drive_of_move {s : Service} {call : CallId} {t : Turn} (h : s.move call = some t) :
    s.drive call = t.andThen fun s => s.drive call :=
  @within_of_choose (fun s => s.move call) (driveWithin call) (fun _ => rfl)
    (fun _ _ => rfl) work_lt_of_move s t h

/-- Where nobody has a move, nothing is left to settle. -/
theorem settle_of_settled {s : Service} (h : s.Settled) : s.settle = s.rest := by
  unfold settle
  cases s.work with
  | zero => rfl
  | succ n => rw [settleWithin, firstMove_eq_none_iff.2 h]

/-- A call that has been answered is not waited for. -/
theorem awaitWithin_of_idle {s : Service} {call : CallId} (idle : s.callers.get? call = none)
    (n : Nat) : s.awaitWithin call n = s.rest := by
  cases n with
  | zero => rfl
  | succ n => rw [awaitWithin, if_neg ((Dict.get?_eq_none_iff _ _).1 idle)]

theorem await_of_idle {s : Service} {call : CallId} (idle : s.callers.get? call = none) :
    s.await call = s.rest := awaitWithin_of_idle idle _

/-- A call that is not at work has no move. -/
theorem move_of_idle {s : Service} {call : CallId} (idle : s.callers.get? call = none) :
    s.move call = none := by
  rw [move, idle]

theorem move_of_settled {s : Service} (settled : s.Settled) (call : CallId) :
    s.move call = none := by
  by_cases hcall : call ∈ s.callers.keys
  · exact settled call hcall
  · exact move_of_idle ((Dict.get?_eq_none_iff _ _).2 hcall)

/-- A call without a move is not driven anywhere. -/
theorem driveWithin_of_still {s : Service} {call : CallId} (h : s.move call = none) (n : Nat) :
    driveWithin call n s = s.rest := by
  cases n with
  | zero => rfl
  | succ n => rw [driveWithin, h]

theorem drive_of_still {s : Service} {call : CallId} (h : s.move call = none) :
    s.drive call = s.rest := driveWithin_of_still h _

/-- After `drive` the call has no move. -/
theorem move_drive (s : Service) (call : CallId) : (s.drive call).service.move call = none :=
  move_driveWithin (Nat.le_refl _)

end Service

end FairLocks
