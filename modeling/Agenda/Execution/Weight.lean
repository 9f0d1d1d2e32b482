import Agenda.Execution.Machine

/-!
# Every step lowers the weight or the unrest

Dispatching a program starts no more than the program weighs, and each small step of the machine in which something
happens lowers the weight of all that is under way. The other steps only take looks or postpone executions; they keep
the weight, and they renew a used-up allowance or lower the unrest. So a machine comes to rest.
-/

namespace Agenda

set_option autoImplicit false

namespace Work

theorem weight_perform (scopes : List Nat) (updates : List Update) (trace : List BoundAction) (s : State)
    (bound : BoundAction) (σ : World) : (perform scopes updates trace s bound σ).1.weight ≤ 4 * trace.length + 4 := by
  unfold perform
  split
  · simp [weight]
  · split
    · simp [weight]
    · simp [weight, Execution.weight, Timer.weight]

theorem detached_perform (scopes : List Nat) (updates : List Update) (trace : List BoundAction) (s : State)
    (bound : BoundAction) (σ : World) : (perform scopes updates trace s bound σ).2.detached = σ.detached := by
  unfold perform
  split
  · rfl
  · split <;> rfl

theorem weight_performAll (scopes : List Nat) (s : State) (σ : World) (trace : List BoundAction) :
    (performAll scopes s σ trace).1.weight ≤ 4 * trace.length := by
  cases trace with
  | nil => simp [performAll, weight]
  | cons bound trace =>
    have := weight_perform scopes [] trace s bound σ
    simp only [performAll, List.length_cons]
    omega

theorem detached_performAll (scopes : List Nat) (s : State) (σ : World) (trace : List BoundAction) :
    (performAll scopes s σ trace).2.detached = σ.detached := by
  cases trace with
  | nil => rfl
  | cons bound trace => exact detached_perform scopes [] trace s bound σ

theorem flightsWeight_append (fs gs : List (Flight Work)) :
    flightsWeight (fs ++ gs) = flightsWeight fs + flightsWeight gs := by
  induction fs with
  | nil => simp [flightsWeight]
  | cons f rest ih =>
    simp only [List.cons_append, flightsWeight, ih]
    omega

theorem totalWeight_append (ws vs : List Work) : totalWeight (ws ++ vs) = totalWeight ws + totalWeight vs := by
  induction ws with
  | nil => simp [totalWeight]
  | cons w rest ih =>
    simp only [List.cons_append, totalWeight, ih]
    omega

theorem totalWeight_works_le (fs : List (Flight Work)) :
    totalWeight (fs.map (·.work)) ≤ flightsWeight fs := by
  induction fs with
  | nil => simp [totalWeight]
  | cons f rest ih =>
    simp only [List.map_cons, totalWeight, flightsWeight]
    omega

theorem flightsWeight_perm {fs gs : List (Flight Work)} (h : fs.Perm gs) : flightsWeight fs = flightsWeight gs := by
  induction h with
  | nil => rfl
  | cons f _ ih => simp only [flightsWeight, ih]
  | swap f g rest =>
    simp only [flightsWeight]
    omega
  | trans _ _ ih1 ih2 => exact ih1.trans ih2

theorem flightsWeight_byTicket_add_ticketless (fs : List (Option Nat × Flight Work)) :
    flightsWeight (byTicket fs) + flightsWeight (ticketless fs) = flightsWeight (fs.map (·.2)) := by
  rw [byTicket, flightsWeight_perm ((List.mergeSort_perm (fs.filter (·.1.isSome)) _).map _), ticketless]
  induction fs with
  | nil => rfl
  | cons f rest ih =>
    cases h : f.1 with
    | none =>
      simp only [List.filter_cons, h, Option.isSome_none, Bool.not_false, Bool.false_eq_true, if_false, if_true,
        List.map_cons, flightsWeight]
      omega
    | some ticket =>
      simp only [List.filter_cons, h, Option.isSome_some, Bool.not_true, Bool.false_eq_true, if_false, if_true,
        List.map_cons, flightsWeight]
      omega

mutual
theorem weight_takeUp : ∀ w : Work, w.takeUp.weight = w.weight
  | .settled _ => by rw [takeUp]
  | .acting _ => by
    rw [takeUp]
    rfl
  | .group s => by
    have h1 := flightsWeight_takeUpFlights s.queue
    have h2 := flightsWeight_takeUpFlights s.waiting
    have h3 := flightsWeight_byTicket_add_ticketless (takeUpFlights s.waiting)
    have h4 := flightsWeight_perm (List.reverse_perm (byTicket (takeUpFlights s.waiting)))
    simp only [takeUp, weight, flightsWeight_append]
    omega

theorem flightsWeight_takeUpFlights :
    ∀ fs : List (Flight Work), flightsWeight ((takeUpFlights fs).map (·.2)) = flightsWeight fs
  | [] => by simp [takeUpFlights]
  | f :: rest => by
    have h1 := weight_takeUp f.work
    have h2 := flightsWeight_takeUpFlights rest
    simp only [takeUpFlights, List.map_cons, flightsWeight]
    omega
end

theorem totalWeight_takeUp (ws : List Work) : totalWeight (ws.map takeUp) = totalWeight ws := by
  induction ws with
  | nil => rfl
  | cons w rest ih => simp only [List.map_cons, totalWeight, weight_takeUp, ih]

end Work

/-- A launch that weighs no more than a program of the given size, and detaches nothing. -/
structure Launch.Within (l : Launch) (σ : World) (size : Nat) : Prop where
  weight : l.work.weight + Frame.rest l.frames + 2 ≤ size
  detached : l.world.detached = σ.detached

/-- A round that weighs no more than its slots did before, and detaches nothing. -/
structure Round.Within (r : Round) (σ : World) (weight : Nat) : Prop where
  weight : Work.flightsWeight r.flights + Scheduler.slotsWeight r.slots ≤ weight
  detached : r.world.detached = σ.detached

namespace Launch

theorem Within.mono {l : Launch} {σ : World} {size size' : Nat} (h : l.Within σ size) (hs : size ≤ size') :
    l.Within σ size' := ⟨Nat.le_trans h.weight hs, h.detached⟩

theorem within_failed (e : Failure) (σ : World) {size : Nat} (h : 2 ≤ size) : (failed e σ).Within σ size :=
  ⟨by simpa [failed, Work.weight, Frame.rest_nil] using h, rfl⟩

theorem within_finished (s : State) (σ : World) {size : Nat} (h : 2 ≤ size) : (finished s σ).Within σ size :=
  ⟨by simpa [finished, Work.weight, Frame.rest_nil] using h, rfl⟩

theorem Within.before {l : Launch} {σ : World} {size : Nat} (h : l.Within σ size) (ps : List Program) :
    (l.within (.before ps)).Within σ (size + Program.sizes ps + 2) := by
  have h1 := h.weight
  have h2 := Frame.rest_concat_before l.frames ps
  exact ⟨by simp only [within]; omega, h.detached⟩

theorem Within.bind {l : Launch} {σ : World} {size : Nat} (h : l.Within σ size) (var : String) :
    (l.within (.bind var)).Within σ (size + 2) := by
  have h1 := h.weight
  have h2 := Frame.rest_concat_bind l.frames var
  exact ⟨by simp only [within]; omega, h.detached⟩

theorem within_group (kind : Control) (s : State) (scopes : List Nat) (σ : World) {round : Round} (size : Nat)
    (h : round.Within σ size) : (group kind s scopes σ round).Within σ (size + 3) := by
  have h1 := h.weight
  refine ⟨?_, h.detached⟩
  simp only [group, Work.weight, Work.flightsWeight, Scheduler.batchWeight, Frame.rest_nil]
  omega

end Launch

namespace Scheduler

theorem slotWeight_le_size (p : Program) : slotWeight p ≤ p.size := by
  unfold slotWeight
  split <;> omega

theorem slotsWeight_le_sizes (ps : List Program) : slotsWeight ps ≤ Program.sizes ps := by
  induction ps with
  | nil => simp [slotsWeight]
  | cons p rest ih =>
    have := slotWeight_le_size p
    simp only [slotsWeight, Program.sizes]
    omega

theorem slotWeight_done : slotWeight .done = 0 := rfl

theorem slotWeight_blocked : slotWeight .blocked = 0 := rfl

theorem slotsWeight_markFinal_le (s : State) (ps : List Program) :
    slotsWeight (Program.markFinal s ps) ≤ slotsWeight ps := by
  induction ps with
  | nil => simp [Program.markFinal, slotsWeight]
  | cons p rest ih =>
    simp only [Program.markFinal, List.map_cons, slotsWeight] at ih ⊢
    split
    · rw [slotWeight_done]
      omega
    · omega

end Scheduler

namespace Program

open Scheduler

mutual
theorem within_dispatch (c : Setting) (s : State) :
    ∀ (p : Program) (scopes : List Nat) (σ : World), (p.dispatch c s scopes σ).Within σ p.size
  | .block statements, scopes, σ => by
    simpa only [dispatch, size] using within_dispatchBlock c s statements scopes σ
  | .branch condition consequent none, scopes, σ => by
    simp only [dispatch]
    split
    · exact Launch.within_failed _ _ (two_le_size _)
    · exact (within_dispatch c s consequent scopes σ).mono (by simp only [size]; omega)
    · exact Launch.within_finished _ _ (two_le_size _)
  | .branch condition consequent (some alternate), scopes, σ => by
    simp only [dispatch]
    split
    · exact Launch.within_failed _ _ (two_le_size _)
    · exact (within_dispatch c s consequent scopes σ).mono (by simp only [size]; omega)
    · exact (within_dispatch c s alternate scopes σ).mono (by simp only [size]; omega)
  | .test condition, scopes, σ => by
    simp only [dispatch]
    split
    · exact Launch.within_failed _ _ (two_le_size _)
    · exact Launch.within_finished _ _ (two_le_size _)
    · exact Launch.within_failed _ _ (two_le_size _)
  | .call name args, scopes, σ => by
    simp only [dispatch]
    split
    · exact Launch.within_failed _ _ (two_le_size _)
    · rename_i bound _
      have := Work.weight_perform scopes [] [] s bound σ
      refine ⟨?_, Work.detached_perform scopes [] [] s bound σ⟩
      simp only [Frame.rest_nil, size, List.length_nil] at this ⊢
      omega
  | .bind var init, scopes, σ => by
    simpa only [dispatch, size] using (within_dispatch c s init scopes σ).bind var
  | .control .or (first :: rest), scopes, σ => by
    simp only [dispatch]
    exact (within_dispatch c s first scopes σ).mono (by simp only [size, sizes]; omega)
  | .control .or [], scopes, σ => by
    simp only [dispatch]
    exact Launch.within_failed _ _ (two_le_size _)
  | .control .plan (body :: rest), scopes, σ => by
    simp only [dispatch]
    split
    · exact Launch.within_failed _ _ (two_le_size _)
    · exact Launch.within_failed _ _ (two_le_size _)
    · rename_i plan hp
      have h1 := Work.weight_performAll scopes s σ plan.trace
      have h2 := length_trace_plan c.domain c.planLimit body s hp
      have h3 := calls_le_size body
      refine ⟨?_, Work.detached_performAll scopes s σ plan.trace⟩
      simp only [Frame.rest_nil, size, sizes]
      omega
  | .control .plan [], scopes, σ => by
    simp only [dispatch]
    exact Launch.within_failed _ _ (two_le_size _)
  | .control .conc branches, scopes, σ => by
    simp only [dispatch]
    split
    · exact Launch.within_failed _ _ (two_le_size _)
    · have h := slotsWeight_le_sizes branches
      split
      · have hm := slotsWeight_markFinal_le s branches
        refine (Launch.within_group .conc s scopes σ (slotsWeight branches) ⟨?_, rfl⟩).mono ?_
        · simp only [Work.flightsWeight]
          omega
        · simp only [size]
          omega
      · have hr := within_dispatchSlots c s branches (σ.nextScope :: scopes) (startsFinal s) 0 0 σ.openScope
        exact (Launch.within_group .conc s scopes σ _ ⟨hr.weight, hr.detached⟩).mono (by simp only [size]; omega)
  | .control .either branches, scopes, σ => by
    simp only [dispatch]
    split
    · exact Launch.within_failed _ _ (two_le_size _)
    · have h := slotsWeight_le_sizes branches
      split
      · have hm := slotsWeight_markFinal_le s branches
        refine (Launch.within_group .either s scopes σ (slotsWeight branches) ⟨?_, rfl⟩).mono ?_
        · simp only [Work.flightsWeight]
          omega
        · simp only [size]
          omega
      · have hr := within_dispatchSlots c s branches (σ.nextScope :: scopes) (startsFinal s) 0 0 σ.openScope
        exact (Launch.within_group .either s scopes σ _ ⟨hr.weight, hr.detached⟩).mono (by simp only [size]; omega)
  | .done, scopes, σ => by
    simp only [dispatch]
    exact Launch.within_finished _ _ (two_le_size _)
  | .blocked, scopes, σ => by
    simp only [dispatch]
    exact Launch.within_failed _ _ (two_le_size _)

theorem within_dispatchBlock (c : Setting) (s : State) :
    ∀ (ps : List Program) (scopes : List Nat) (σ : World),
      (dispatchBlock c s scopes ps σ).Within σ (sizes ps + 2)
  | [], scopes, σ => by
    simp only [dispatchBlock]
    exact Launch.within_finished _ _ (by omega)
  | p :: rest, scopes, σ => by
    simp only [dispatchBlock]
    split
    · exact Launch.within_failed _ _ (by omega)
    · exact (within_dispatchBlock c s rest scopes σ).mono (by simp only [sizes]; omega)
    · exact ((within_dispatch c s p scopes σ).before rest).mono (by simp only [sizes]; omega)

theorem within_dispatchSlots (c : Setting) (s : State) :
    ∀ (ps : List Program) (scopes : List Nat) (final : Program → Bool) (slot seq : Nat) (σ : World),
      (dispatchSlots c s scopes final slot seq ps σ).Within σ (slotsWeight ps)
  | [], scopes, final, slot, seq, σ => by
    simp only [dispatchSlots]
    exact ⟨by simp [Work.flightsWeight, slotsWeight], rfl⟩
  | p :: rest, scopes, final, slot, seq, σ => by
    simp only [dispatchSlots]
    split
    · have h := within_dispatchSlots c s rest scopes final (slot + 1) seq σ
      have h1 := h.weight
      exact ⟨by simp only [Round.keep, slotsWeight, slotWeight_done]; omega, h.detached⟩
    · split
      · have h := within_dispatchSlots c s rest scopes final (slot + 1) seq σ
        have h1 := h.weight
        exact ⟨by simp only [Round.keep, slotsWeight]; omega, h.detached⟩
      · rename_i hm
        have hp := within_dispatch c s p scopes σ
        have h := within_dispatchSlots c s rest scopes final (slot + 1) (seq + 1)
          (p.dispatch c s scopes σ).world
        have h1 := h.weight
        have h2 := hp.weight
        have h3 : slotWeight p = p.size := by simp [slotWeight, hm]
        refine ⟨?_, h.detached.trans hp.detached⟩
        simp only [Round.start, Work.flightsWeight, slotsWeight, slotWeight_blocked]
        omega
end

end Program

namespace Scheduler

variable {τ : Type}

theorem slotsWeight_set_le (ps : List Program) (i : Nat) (q : Program) :
    slotsWeight (ps.set i q) ≤ slotsWeight ps + slotWeight q := by
  induction ps generalizing i with
  | nil => simp [slotsWeight]
  | cons p rest ih =>
    cases i with
    | zero =>
      simp only [List.set_cons_zero, slotsWeight]
      omega
    | succ i =>
      have := ih i
      simp only [List.set_cons_succ, slotsWeight]
      omega

theorem batchWeight_append (cs ds : List Completion) : batchWeight (cs ++ ds) = batchWeight cs + batchWeight ds := by
  induction cs with
  | nil => simp [batchWeight]
  | cons c rest ih =>
    simp only [List.cons_append, batchWeight, ih]
    omega

theorem batchWeight_perm {cs ds : List Completion} (h : cs.Perm ds) : batchWeight cs = batchWeight ds := by
  induction h with
  | nil => rfl
  | cons c _ ih => simp only [batchWeight, ih]
  | swap c d rest =>
    simp only [batchWeight]
    omega
  | trans _ _ ih1 ih2 => exact ih1.trans ih2

theorem length_le_batchWeight (cs : List Completion) : cs.length ≤ batchWeight cs := by
  induction cs with
  | nil => simp
  | cons c rest ih =>
    simp only [List.length_cons, batchWeight]
    omega

theorem slotWeight_nextSlot_le (s : State) (continuation : Option Program) {next : Program}
    (h : nextSlot s continuation = .ok next) : slotWeight next ≤ Program.sizeOption continuation := by
  cases continuation with
  | none =>
    cases h
    simp [slotWeight_done]
  | some p =>
    simp only [nextSlot] at h
    obtain ⟨b, -, h⟩ := Except.exists_of_bind_eq_ok h
    cases b with
    | true =>
      cases h
      simp [slotWeight_done]
    | false =>
      cases h
      exact slotWeight_le_size next

/-- Folding one transition turns at most what remained of it into the share of its slot. -/
theorem complete_spec (s : Scheduler τ) (c : Completion) {t : Scheduler τ} (h : s.complete c = .ok t) :
    slotsWeight t.slots ≤ slotsWeight s.slots + Frame.rest c.frames ∧
      t.queue = s.queue ∧ t.waiting = s.waiting ∧ t.batch = s.batch := by
  unfold complete at h
  split at h
  · cases h
  · rename_i o _
    simp only [absorb] at h
    obtain ⟨next, hn, h⟩ := Except.exists_of_bind_eq_ok h
    cases h
    have h1 := slotsWeight_set_le s.slots c.slot next
    have h2 := slotWeight_nextSlot_le _ _ hn
    rw [Frame.continuation_resume] at h2
    refine ⟨?_, rfl, rfl, rfl⟩
    simp only [Frame.rest]
    omega

theorem foldAll_spec (s : Scheduler τ) (cs : List Completion) {t : Scheduler τ} (h : s.foldAll cs = .ok t) :
    slotsWeight t.slots + cs.length ≤ slotsWeight s.slots + batchWeight cs ∧
      t.queue = s.queue ∧ t.waiting = s.waiting ∧ t.batch = s.batch := by
  induction cs generalizing s with
  | nil =>
    cases h
    simp [batchWeight]
  | cons c rest ih =>
    rw [foldAll] at h
    split at h
    · cases h
      have := length_le_batchWeight (c :: rest)
      exact ⟨by omega, rfl, rfl, rfl⟩
    · obtain ⟨u, hu, h⟩ := Except.exists_of_bind_eq_ok h
      obtain ⟨h1, h2, h3, h4⟩ := complete_spec s c hu
      obtain ⟨k1, k2, k3, k4⟩ := ih u h
      refine ⟨?_, k2.trans h2, k3.trans h3, k4.trans h4⟩
      simp only [List.length_cons, batchWeight]
      omega

theorem foldBatch_spec (s : Scheduler τ) {t : Scheduler τ} (h : s.foldBatch = .ok t) :
    slotsWeight t.slots + s.batch.length ≤ slotsWeight s.slots + batchWeight s.batch ∧
      t.queue = s.queue ∧ t.waiting = s.waiting ∧ t.batch = [] := by
  have hp := List.mergeSort_perm s.batch (fun a b => decide (a.seq ≤ b.seq))
  have := foldAll_spec _ _ h
  rw [hp.length_eq, batchWeight_perm hp] at this
  exact this

end Scheduler

/-- A work moved on: something happened and the weight is lower, what it detached included, or a look was taken or an
execution postponed. -/
def Work.Lower (w : Work) (σ : World) (next : Work × World) : Prop :=
  next.1.weight + totalWeight next.2.detached < w.weight + totalWeight σ.detached ∨
    next.2.detached = σ.detached ∧ next.2.allowance = σ.allowance ∧ next.1.weight = w.weight ∧ next.1.unrest < w.unrest

namespace Execution

theorem complete_spec (e : Execution) (σ : World) :
    (e.complete σ).1.weight ≤ 4 * e.trace.length ∧ (e.complete σ).2.detached = σ.detached := by
  unfold complete
  simp only
  split
  · exact ⟨by simp [Work.weight], rfl⟩
  · split
    · exact ⟨by simp [Work.weight], rfl⟩
    · rename_i bound trace ht
      refine ⟨?_, by rw [Work.detached_perform]; rfl⟩
      rw [ht]
      simpa [Nat.mul_add] using Work.weight_perform e.scopes _ trace e.after bound _

theorem lower_complete (e : Execution) {σ τ : World} (h : τ.detached = σ.detached) :
    (Work.acting e).Lower σ (e.complete τ) := by
  obtain ⟨h1, h2⟩ := e.complete_spec τ
  refine .inl ?_
  rw [h2, h]
  have : 0 < e.timer.weight := by cases e.timer <;> simp [Timer.weight]
  simp only [Work.weight, weight]
  omega

theorem lower_start (e : Execution) (σ : World) (h : e.timer = .idle) : (Work.acting e).Lower σ (e.start σ) :=
  .inl (by simp [start, World.record, Work.weight, weight, h, Timer.weight])

theorem lower_postpone (e : Execution) (σ : World) (h : e.postponed.isSome = false) :
    (Work.acting e).Lower σ (e.postpone σ) :=
  .inr ⟨rfl, rfl, rfl, by simp [postpone, Work.unrest, h]⟩

theorem lower_setTimer (e : Execution) (latency : Nat) (σ : World) (h : e.timer = .unset) :
    (Work.acting e).Lower σ (e.setTimer latency σ) :=
  .inl (by simp [setTimer, Work.weight, weight, h, Timer.weight])

theorem lower_advance (e : Execution) (σ : World) {next : Work × World} (h : e.advance σ = some next) :
    (Work.acting e).Lower σ next := by
  unfold advance at h
  split at h
  · cases h
  · rename_i hp
    rw [Bool.not_eq_true] at hp
    split at h
    · rename_i ht
      cases h
      exact e.lower_start σ ht
    · cases h
      exact e.lower_complete rfl
    · rename_i latency _ ht
      split at h
      · cases h
        exact e.lower_postpone σ hp
      · split at h
        · cases h
          exact e.lower_complete rfl
        · cases h
          exact e.lower_setTimer latency σ ht
    · cases h
    · split at h
      · cases h
        exact e.lower_postpone σ hp
      · cases h
        exact e.lower_complete rfl

end Execution

namespace Scheduler

theorem weight_conclude (s : Scheduler Work) (outcome : Except Failure Outcome) (σ : World) :
    (s.conclude outcome σ).1.weight + Work.totalWeight (s.conclude outcome σ).2.detached ≤
      Work.flightsWeight s.queue + Work.flightsWeight s.waiting + Work.totalWeight σ.detached := by
  have := Work.totalWeight_works_le s.flights
  rw [flights, Work.flightsWeight_append] at this
  simp only [conclude, World.abandon, World.record, Work.weight, works, flights, Work.totalWeight_append,
    Work.totalWeight_takeUp]
  omega

theorem weight_dispatchLive (c : Setting) (s : Scheduler Work) (σ : World) :
    (s.dispatchLive c σ).1.weight ≤
        Work.flightsWeight s.queue + Work.flightsWeight s.waiting + slotsWeight s.slots + batchWeight s.batch + 1 ∧
      (s.dispatchLive c σ).2.detached = σ.detached := by
  have h := Program.within_dispatchSlots c s.state s.slots (s.scope :: s.outer) (fun _ => false) 0 s.nextSeq σ
  have hw := h.weight
  refine ⟨?_, h.detached⟩
  simp only [dispatchLive, Work.weight, Work.flightsWeight_append]
  omega

end Scheduler

namespace Work

theorem flightsUnrest_append (fs gs : List (Flight Work)) :
    flightsUnrest (fs ++ gs) = flightsUnrest fs + flightsUnrest gs := by
  induction fs with
  | nil => simp [flightsUnrest]
  | cons f rest ih =>
    simp only [List.cons_append, flightsUnrest, ih]
    omega

theorem weight_wake (w : Work) : w.wake.weight = w.weight := by
  cases w <;> simp [wake, weight]

theorem unrest_wake {w : Work} (h : w.asks = true) : w.wake.unrest + 2 ≤ w.unrest := by
  cases w with
  | settled outcome => cases h
  | acting e => cases h
  | group s =>
    simp only [asks, Bool.and_eq_true] at h
    obtain ⟨hr, ha⟩ := h
    cases hs : s.attention with
    | looking taken asks again =>
      rw [hs] at hr
      cases hr
    | resting again =>
      rw [hs] at ha
      simp only [Attention.again] at ha
      simp only [wake, unrest, hs, ha, Attention.unrest, Attention.fresh]
      simp

end Work

namespace Attention

theorem unrest_looked_le (a : Attention) (asks : Bool) (h : a.isResting = false) :
    (a.looked asks).unrest ≤ a.unrest + 3 := by
  cases a with
  | looking taken n again =>
    simp only [looked, unrest]
    split <;> split <;> omega
  | resting again => cases h

theorem unrest_passOn_le (a : Attention) (request : Bool) : (a.passOn request).unrest ≤ a.unrest + 3 := by
  cases a with
  | looking taken n again =>
    simp only [passOn, unrest]
    split <;> split <;> omega
  | resting again => exact Nat.le_add_right _ _

theorem unrest_resting_lt (a : Attention) (flights : Nat) (short : Bool) (h : a.isResting = false) (hf : 0 < flights)
    (hs : short = true → a.isSpent flights = true) : (resting (a.again || short)).unrest < a.unrest := by
  cases a with
  | looking taken asks again =>
    cases again with
    | true => simp [unrest, Attention.again]
    | false =>
      cases short with
      | false =>
        simp only [unrest, Attention.again, Bool.or_self, Bool.false_eq_true, if_false]
        split <;> omega
      | true =>
        have := hs rfl
        simp only [isSpent, Bool.or_eq_true, decide_eq_true_eq, beq_iff_eq] at this
        have ht : 0 < taken ∨ 0 < asks := by omega
        simp only [unrest, Attention.again, Bool.false_or, Bool.or_true, if_true]
        rw [if_pos (by simpa using ht)]
        omega
  | resting again => cases h

end Attention

namespace Scheduler

theorem lower_turn (c : Setting) (s : Scheduler Work) (short : Bool) (σ : World) (hr : s.attention.isResting = false)
    (hs : short = true → s.attention.isSpent s.flights.length = true) :
    (Work.group s).Lower σ (s.turn c short σ) := by
  unfold turn
  split
  · refine .inl ?_
    simp only [Work.weight]
    omega
  · rename_i f rest hb hf
    refine .inr ⟨rfl, rfl, by simp only [Work.weight], ?_⟩
    have := s.attention.unrest_resting_lt s.flights.length short hr (by rw [hf]; simp) hs
    simp only [Work.unrest]
    omega
  · rename_i b rest hb
    have hl : s.batch.length = rest.length + 1 := by rw [hb]; rfl
    refine .inl ?_
    split
    · rename_i e _
      have := s.weight_conclude (.error e) σ
      simp only [Work.weight]
      omega
    · rename_i t ht
      obtain ⟨h1, h2, h3, h4⟩ := foldBatch_spec s ht
      split
      · have := t.weight_conclude (.ok t.outcome) σ
        rw [h2, h3] at this
        simp only [Work.weight]
        omega
      · obtain ⟨k1, k2⟩ := weight_dispatchLive c t σ
        rw [h2, h3, h4] at k1
        rw [k2]
        simp only [Work.weight, batchWeight] at k1 ⊢
        omega

/-- A flight that cannot move: its end is noted, or a look was taken. -/
theorem lower_receive (s : Scheduler Work) (f : Flight Work) (rest : List (Flight Work)) (σ : World)
    (hr : s.attention.isResting = false) (hq : s.queue = f :: rest) :
    (Work.group s).Lower σ (.group (s.receive f rest), σ) := by
  have ha := s.attention.unrest_looked_le true hr
  have hb := s.attention.unrest_looked_le false hr
  unfold receive
  split
  · rename_i outcome ho
    refine .inl ?_
    simp only [Work.weight, hq, Work.flightsWeight, batchWeight_append, batchWeight, ho]
    omega
  · split
    · rename_i h
      have hw := Work.weight_wake f.work
      have hu := Work.unrest_wake h
      refine .inr ⟨rfl, rfl, ?_, ?_⟩
      · simp only [Work.weight, hq, Work.flightsWeight_append, Work.flightsWeight, hw]
        omega
      · simp only [Work.unrest, hq, Work.flightsUnrest_append, Work.flightsUnrest, List.length_append,
          List.length_cons, List.length_nil]
        omega
    · refine .inr ⟨rfl, rfl, ?_, ?_⟩
      · simp only [Work.weight, hq, Work.flightsWeight_append, Work.flightsWeight]
        omega
      · simp only [Work.unrest, hq, Work.flightsUnrest_append, Work.flightsUnrest, List.length_cons]
        omega

/-- A flight that moves takes the construct along. A request that is passed on weighs less than the move. -/
theorem lower_follow (s : Scheduler Work) (f : Flight Work) (rest : List (Flight Work)) {σ : World} {work : Work}
    {world : World} (hq : s.queue = f :: rest) (h : f.work.Lower σ (work, world)) :
    (Work.group s).Lower σ (.group (s.follow f rest work), world) := by
  rcases h with hl | ⟨hd, ha, hl, hu⟩
  · simp only at hl
    refine .inl ?_
    simp only [follow, Work.weight, hq, Work.flightsWeight]
    omega
  · simp only at hl hu
    have := s.attention.unrest_passOn_le (work.again && s.batch.isEmpty)
    refine .inr ⟨hd, ha, ?_, ?_⟩
    · simp only [follow, Work.weight, hq, Work.flightsWeight]
      omega
    · simp only [follow, Work.unrest, hq, Work.flightsUnrest, List.length_cons]
      omega

end Scheduler

namespace Work

mutual
theorem lower_advance (c : Setting) :
    ∀ (w : Work) (σ : World) {next : Work × World}, w.advance c σ = some next → w.Lower σ next
  | .settled _, σ, next, h => by simp [advance] at h
  | .acting e, σ, next, h => by
    rw [advance] at h
    exact e.lower_advance σ h
  | .group s, σ, next, h => by
    simp only [advance] at h
    split at h
    · cases h
    · rename_i hr
      rw [Bool.not_eq_true] at hr
      split at h
      · have := s.weight_conclude (.ok s.outcome) σ
        cases h
        refine .inl ?_
        simp only [weight]
        omega
      · split at h
        · rename_i hs
          cases h
          exact s.lower_turn c true σ hr fun _ => hs
        · split at h
          · cases h
            exact s.lower_turn c false σ hr fun h => nomatch h
          · rename_i f rest work world hq hw
            cases h
            exact s.lower_follow f rest hq (lower_advanceFirst c s.queue σ hw f rest hq)
          · rename_i f rest hq _
            cases h
            exact s.lower_receive f rest σ hr hq

theorem lower_advanceFirst (c : Setting) :
    ∀ (fs : List (Flight Work)) (σ : World) {next : Work × World}, advanceFirst c fs σ = some next →
      ∀ f rest, fs = f :: rest → f.work.Lower σ next
  | [], σ, next, h => by simp [advanceFirst] at h
  | g :: _, σ, next, h => by
    intro f rest hf
    cases hf
    rw [advanceFirst] at h
    exact lower_advance c g.work σ h
end

theorem lower_move (c : Setting) (w : Work) (σ : World) {next : Work × World} (h : w.move c σ = some next) :
    w.Lower σ next := by
  unfold move at h
  split at h
  · rename_i hw
    cases h
    exact w.lower_advance c σ hw
  · split at h
    · rename_i ha
      cases h
      have := unrest_wake ha
      exact .inr ⟨rfl, rfl, w.weight_wake, by simp only; omega⟩
    · cases h

mutual
theorem weight_ring_le (time : Nat) : ∀ w : Work, (w.ring time).weight ≤ w.weight
  | .settled _ => by simp [ring, weight]
  | .acting e => by
    simp only [ring]
    split
    · rename_i ht
      split
      · simp only [weight, Execution.weight, ht, Timer.weight]
        omega
      · exact Nat.le_refl _
    · exact Nat.le_refl _
  | .group s => by
    have h1 := flightsWeight_ringFlights_le time s.waiting
    have h2 := flightsWeight_byTicket_add_ticketless (ringFlights time s.waiting)
    simp only [ring, weight, flightsWeight_append]
    omega

theorem flightsWeight_ringFlights_le (time : Nat) :
    ∀ fs : List (Flight Work), flightsWeight ((ringFlights time fs).map (·.2)) ≤ flightsWeight fs
  | [] => by simp [ringFlights]
  | f :: rest => by
    have h1 := weight_ring_le time f.work
    have h2 := flightsWeight_ringFlights_le time rest
    simp only [ringFlights, List.map_cons, flightsWeight]
    omega
end

theorem merge_min_eq_some {a b : Option Nat} {d : Nat} (h : Option.merge min a b = some d) :
    a = some d ∨ b = some d := by
  cases a with
  | none => cases b <;> simp_all [Option.merge]
  | some x =>
    cases b with
    | none => exact .inl (by simpa [Option.merge] using h)
    | some y =>
      simp only [Option.merge, Option.some.injEq] at h
      rcases Nat.le_total x y with hl | hl
      · exact .inl (by rw [← h, Nat.min_eq_left hl])
      · exact .inr (by rw [← h, Nat.min_eq_right hl])

mutual
theorem weight_ring_lt (time : Nat) :
    ∀ (w : Work) {due : Nat}, w.nextDue = some due → due ≤ time → (w.ring time).weight < w.weight
  | .settled _, due, h, _ => by simp [nextDue] at h
  | .acting e, due, h, hd => by
    simp only [nextDue] at h
    split at h
    · rename_i ticket due' ht
      cases h
      simp only [ring, ht, if_pos hd, weight, Execution.weight, Timer.weight]
      omega
    · cases h
  | .group s, due, h, hd => by
    simp only [nextDue] at h
    have h1 := flightsWeight_ringFlights_lt time s.waiting h hd
    have h2 := flightsWeight_byTicket_add_ticketless (ringFlights time s.waiting)
    simp only [ring, weight, flightsWeight_append]
    omega

theorem flightsWeight_ringFlights_lt (time : Nat) :
    ∀ (fs : List (Flight Work)) {due : Nat}, nextDueOfFlights fs = some due → due ≤ time →
      flightsWeight ((ringFlights time fs).map (·.2)) < flightsWeight fs
  | [], due, h, _ => by simp [nextDueOfFlights] at h
  | f :: rest, due, h, hd => by
    simp only [nextDueOfFlights] at h
    simp only [ringFlights, List.map_cons, flightsWeight]
    rcases merge_min_eq_some h with h | h
    · have h1 := weight_ring_lt time f.work h hd
      have h2 := flightsWeight_ringFlights_le time rest
      omega
    · have h1 := weight_ring_le time f.work
      have h2 := flightsWeight_ringFlights_lt time rest h hd
      omega
end

theorem totalWeight_ring_le (time : Nat) (ws : List Work) : totalWeight (ws.map (ring time)) ≤ totalWeight ws := by
  induction ws with
  | nil => simp
  | cons w rest ih =>
    have := weight_ring_le time w
    simp only [List.map_cons, totalWeight]
    omega

theorem totalWeight_ring_lt (time : Nat) (ws : List Work)
    (h : ws.foldr (fun w t => Option.merge min w.nextDue t) none = some time) :
    totalWeight (ws.map (ring time)) < totalWeight ws := by
  induction ws with
  | nil => cases h
  | cons w rest ih =>
    simp only [List.foldr_cons] at h
    simp only [List.map_cons, totalWeight]
    rcases merge_min_eq_some h with h | h
    · have h1 := weight_ring_lt time w h (Nat.le_refl _)
      have h2 := totalWeight_ring_le time rest
      omega
    · have h1 := weight_ring_le time w
      have h2 := ih h
      omega

theorem totalUnrest_append (ws vs : List Work) : totalUnrest (ws ++ vs) = totalUnrest ws + totalUnrest vs := by
  induction ws with
  | nil => simp [totalUnrest]
  | cons w rest ih =>
    simp only [List.cons_append, totalUnrest, ih]
    omega

end Work

namespace Machine

theorem lower_advanceDetached (c : Setting) (before ws : List Work) (σ : World) {σ' : World}
    (h : advanceDetached c before ws σ = some σ') :
    σ'.allowance = σ.allowance ∧
      (Work.totalWeight σ'.detached < Work.totalWeight (before ++ ws) ∨
        Work.totalWeight σ'.detached = Work.totalWeight (before ++ ws) ∧
          Work.totalUnrest σ'.detached < Work.totalUnrest (before ++ ws)) := by
  induction ws generalizing before with
  | nil => cases h
  | cons w rest ih =>
    rw [advanceDetached] at h
    split at h
    · rename_i work world hw
      cases h
      refine ⟨rfl, ?_⟩
      rcases w.lower_move c _ hw with hl | ⟨hd, _, hl, hu⟩
      · refine .inl ?_
        simp only [Work.totalWeight_append, Work.totalWeight, List.append_assoc, List.cons_append] at hl ⊢
        omega
      · simp only at hd hl hu
        refine .inr ⟨?_, ?_⟩
        · simp only [hd, Work.totalWeight_append, Work.totalWeight, List.append_nil]
          omega
        · simp only [hd, Work.totalUnrest_append, Work.totalUnrest, List.append_nil]
          omega
    · have := ih _ h
      simpa using this

/-- Every step of a machine lowers its weight, or keeps it and lowers its fatigue, or keeps both and lowers its
unrest. -/
theorem lower_step (c : Setting) (m : Machine) {m' : Machine} (h : m.step c = some m') :
    m'.weight < m.weight ∨
      m'.weight = m.weight ∧ (m'.fatigue < m.fatigue ∨ m'.fatigue = m.fatigue ∧ m'.unrest < m.unrest) := by
  unfold step at h
  split at h
  · rename_i main world hw
    cases h
    rcases m.main.lower_advance c m.world hw with hl | ⟨hd, ha, hl, hu⟩
    · exact .inl hl
    · simp only at hd ha hl hu
      refine .inr ⟨?_, .inr ⟨by rw [fatigue, ha]; rfl, ?_⟩⟩
      · simp only [weight, hd]
        omega
      · simp only [unrest, hd]
        omega
  · split at h
    · rename_i ha
      cases h
      refine .inr ⟨?_, .inl ?_⟩
      · simp only [weight, Work.weight_takeUp, World.renew]
      · simp [fatigue, ha, World.renew]
    · rename_i ha
      split at h
      · rename_i hr
        cases h
        have hu := Work.unrest_wake hr
        refine .inr ⟨?_, .inr ⟨?_, ?_⟩⟩
        · simp only [weight, Work.weight_wake, World.renew]
        · simp [fatigue, ha, World.renew]
        · simp only [unrest, World.renew]
          omega
      · split at h
        · rename_i world hd
          obtain ⟨h1, h2⟩ := lower_advanceDetached c [] _ _ hd
          cases h
          have hf : (⟨m.main, world⟩ : Machine).fatigue = m.fatigue := by rw [fatigue, h1]; rfl
          simp only [List.nil_append] at h2
          rcases h2 with hl | ⟨hl, hu⟩
          · refine .inl ?_
            simp only [weight]
            omega
          · refine .inr ⟨?_, .inr ⟨hf, ?_⟩⟩
            · simp only [weight]
              omega
            · simp only [unrest]
              omega
        · obtain ⟨time, ht, rfl⟩ := Option.map_eq_some_iff.mp h
          refine .inl ?_
          simp only [ring, weight]
          rcases Work.merge_min_eq_some ht with h | h
          · have h1 := m.main.weight_ring_lt time h (Nat.le_refl _)
            have h2 := Work.totalWeight_ring_le time m.world.detached
            omega
          · have h1 := m.main.weight_ring_le time
            have h2 := Work.totalWeight_ring_lt time m.world.detached h
            omega

theorem lex_step (c : Setting) (m : Machine) {m' : Machine} (h : m.step c = some m') :
    Prod.Lex (· < ·) (Prod.Lex (· < ·) (· < ·)) (m'.weight, m'.fatigue, m'.unrest) (m.weight, m.fatigue, m.unrest) := by
  rcases m.lower_step c h with hl | ⟨he, hl | ⟨hf, hl⟩⟩
  · exact .left _ _ hl
  · rw [he]
    exact .right _ (.left _ _ hl)
  · rw [he, hf]
    exact .right _ (.right _ hl)

end Machine

end Agenda
