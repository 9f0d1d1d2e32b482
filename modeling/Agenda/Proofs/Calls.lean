import Mathlib
import Agenda.Proofs.Launches
import Agenda.Proofs.Stirring

/-!
# The calls of a work

A work has calls that are not dispatched yet: in the slots of its constructs, around what is under way, and behind an
action of a plan. No step makes their number greater. Counting in the actions that execute, it bounds the waits that can
still come to their end, so a work with fewer calls than its world has allowance never comes to be postponed.
-/

namespace Agenda

set_option autoImplicit false

def Frame.calls (frames : List Frame) : Nat := Program.callsOption (residual frames)

theorem Frame.calls_before (frames : List Frame) (rest : List Program) :
    calls (frames ++ [.before rest]) = calls frames + Program.callsOfAll rest := by
  simpa [calls, residual, wrap] using Successor.callsOption_resequence (residual frames) rest

theorem Frame.calls_bind (frames : List Frame) (var : String) : calls (frames ++ [.bind var]) = calls frames := by
  simp only [calls, residual, List.foldl_append, List.foldl_cons, List.foldl_nil, wrap]
  cases List.foldl wrap none frames <;> simp [Program.callsOption, Program.calls]

namespace Program

theorem calls_of_isMark {p : Program} (h : p.isMark = true) : p.calls = 0 := by
  cases p with
  | done => rfl
  | blocked => rfl
  | _ => cases h

theorem Enters.calls_le {s : State} {p q : Program} (h : p.Enters s q) : q.calls ≤ p.calls := by
  cases h with
  | consequent _ alternate _ => cases alternate <;> simp [calls]
  | alternate _ _ _ => simp [calls]
  | first p rest => simp [calls, callsOfAll]

theorem callsOfAll_set_le (ps : List Program) (i : Nat) (p : Program) :
    callsOfAll (ps.set i p) ≤ callsOfAll ps + p.calls := by
  induction ps generalizing i with
  | nil => simp
  | cons q rest ih =>
    cases i with
    | zero =>
      simp only [List.set_cons_zero, callsOfAll]
      omega
    | succ i =>
      have hr := ih i
      simp only [List.set_cons_succ, callsOfAll]
      omega

theorem callsOfAll_markFinal_le (s : State) (ps : List Program) : callsOfAll (markFinal s ps) ≤ callsOfAll ps := by
  induction ps with
  | nil => exact Nat.le_refl 0
  | cons p rest ih =>
    rw [markFinal, List.map_cons, callsOfAll, callsOfAll, ← markFinal]
    refine Nat.add_le_add ?_ ih
    split
    · exact Nat.zero_le _
    · exact Nat.le_refl _

end Program

namespace Work

mutual
/-- The calls of a work that are not dispatched yet. An action that executes counts as much as is said. -/
def calls (share : Nat) : Work → Nat
  | .settled _ => 0
  | .acting e => share + e.trace.length
  | .group s => Program.callsOfAll s.slots + (s.batch.map fun c => Frame.calls c.frames).sum +
      flightsCalls share s.queue + flightsCalls share s.waiting
termination_by structural w => w

def flightsCalls (share : Nat) : List (Flight Work) → Nat
  | [] => 0
  | f :: rest => f.work.calls share + Frame.calls f.frames + flightsCalls share rest
termination_by structural fs => fs
end

abbrev callsOfFlight (share : Nat) (f : Flight Work) : Nat := f.work.calls share + Frame.calls f.frames

theorem flightsCalls_eq (share : Nat) (fs : List (Flight Work)) :
    flightsCalls share fs = (fs.map (callsOfFlight share)).sum := by
  induction fs with
  | nil => rfl
  | cons f rest ih => rw [flightsCalls, ih, List.map_cons, List.sum_cons]

theorem calls_group (share : Nat) (s : Scheduler Work) :
    (group s).calls share = Program.callsOfAll s.slots + (s.batch.map fun c => Frame.calls c.frames).sum +
      (s.flights.map (callsOfFlight share)).sum := by
  rw [calls, flightsCalls_eq, flightsCalls_eq, Scheduler.flights, List.map_append, List.sum_append, Nat.add_assoc]

theorem Stirs.calls_eq {w w' : Work} (h : Stirs w w') (share : Nat) : w'.calls share = w.calls share := by
  induction h with
  | settled outcome => rfl
  | acting e timer postponed _ => rfl
  | @group s queue waiting attention fs he hp _ ih =>
    have hf : ∀ x ∈ fs, callsOfFlight share x.flight = callsOfFlight share x.1 := by
      intro x hx
      rw [callsOfFlight, callsOfFlight, ih x hx]
    rw [calls_group, calls_group]
    exact congrArg _ (map_stirred_perm (callsOfFlight share) he hp hf).sum_eq

/-- The waits that can still come to their end in a work: those of its calls and of the actions that execute. -/
abbrev load (w : Work) : Nat := w.calls 1

end Work

/-- From one world to the next, what is left to wait for is less by all that was spent. -/
structure World.Spends (σ τ : World) (before after : Nat) : Prop where
  allowance : τ.allowance ≤ σ.allowance
  load : after + σ.allowance ≤ before + τ.allowance

namespace World

theorem spends_of_le {σ τ : World} (h : τ.allowance = σ.allowance) {before after : Nat} (hl : after ≤ before) :
    σ.Spends τ before after :=
  ⟨Nat.le_of_eq h, by omega⟩

theorem spends_abandon (σ : World) (scope : Nat) (works : List Work) (before : Nat) :
    σ.Spends (σ.abandon scope works) before 0 :=
  ⟨Nat.le_refl _, Nat.add_le_add_right (Nat.zero_le before) _⟩

theorem Spends.load_le {σ τ : World} {before after : Nat} (h : σ.Spends τ before after) : after ≤ before := by
  have ha := h.allowance
  have hl := h.load
  omega

end World

namespace Work

theorem load_perform_le (scopes : List Nat) (updates : List Update) (trace : List BoundAction) (s : State)
    (bound : BoundAction) (σ : World) : (perform scopes updates trace s bound σ).1.load ≤ 1 + trace.length := by
  obtain ⟨e, he⟩ | ⟨-, he⟩ := perform_cases scopes updates trace s bound σ
  · rw [he]
    exact Nat.zero_le _
  · rw [he]
    exact Nat.le_refl _

end Work

theorem Execution.load_complete_le (e : Execution) (σ : World) : (e.complete σ).1.load ≤ e.trace.length := by
  obtain ⟨message, he⟩ | ⟨result, -, he⟩ | ⟨bound, trace, ht, he⟩ := e.complete_cases σ
  · rw [he]
    exact Nat.zero_le _
  · rw [he]
    exact Nat.zero_le _
  · rw [he, ht]
    have hl := Work.load_perform_le e.scopes (e.updates ++ [.effect e.bound]) trace e.after bound
      (σ.record (.completed e.bound.record σ.clock))
    rw [List.length_cons]
    omega

theorem Program.load_cases (c : Setting) (s : State) :
    DispatchCases c s
      (fun p _ _ l => l.work.load + Frame.calls l.frames ≤ p.calls)
      (fun ps _ _ _ _ _ r => callsOfAll r.slots + (r.flights.map (Work.callsOfFlight 1)).sum ≤ callsOfAll ps) where
  failed _ _ _ _ _ := Nat.zero_le _
  finished _ _ _ _ := Nat.zero_le _
  call _ _ scopes σ bound _ := Work.load_perform_le scopes [] [] s bound σ
  plan body rest scopes σ plan hp := by
    have hl := length_trace_plan c.domain c.planLimit body s hp
    have hb : (control .plan (body :: rest)).calls = body.calls + callsOfAll rest := by simp only [calls, callsOfAll]
    obtain ⟨-, he⟩ | ⟨bound, trace, ht, he⟩ := Work.performAll_cases scopes s σ plan.trace
    · simp only [he]
      exact Nat.zero_le _
    · simp only [he]
      have hw := Work.load_perform_le scopes [] trace s bound σ
      rw [ht, List.length_cons] at hl
      change _ + 0 ≤ _
      omega
  enter _ _ _ _ _ he h := h.trans he.calls_le
  skip p rest _ _ l _ h := by
    apply h.trans
    simp [calls, callsOfAll]
  before p rest _ _ l _ h := by
    simp only [Launch.within, Frame.calls_before, calls, callsOfAll]
    omega
  bind var init _ _ l h := by
    simp only [Launch.within, Frame.calls_bind, calls]
    exact h
  decided kind branches _ σ _ _ _ _ := by
    rw [Launch.group, Work.load, Work.calls_group, calls]
    exact callsOfAll_markFinal_le s branches
  group kind branches _ _ r _ _ _ _ h := by
    rw [Launch.group, Work.load, Work.calls_group, calls, Scheduler.flights, List.append_nil]
    exact h
  nil _ _ _ _ _ := Nat.le_refl 0
  done p rest _ _ _ _ _ r _ h := by
    simp only [Round.keep, callsOfAll, calls]
    omega
  mark p rest _ _ _ _ _ r _ hm h := by
    simp only [Round.keep, callsOfAll]
    omega
  start p rest _ _ _ _ _ l r _ _ hl h := by
    have hl : l.work.calls 1 + Frame.calls l.frames ≤ p.calls := hl
    simp only [Round.start, callsOfAll, calls, List.map_cons, List.sum_cons, Work.callsOfFlight]
    omega

namespace Scheduler

theorem calls_nextSlot_le {s : State} {continuation : Option Program} {next : Program}
    (h : nextSlot s continuation = .ok next) : next.calls ≤ Program.callsOption continuation := by
  cases continuation with
  | none =>
    cases h
    exact Nat.le_refl 0
  | some p =>
    obtain ⟨final, -, h⟩ := Except.exists_of_bind_eq_ok h
    cases final with
    | true =>
      cases h
      exact Nat.zero_le _
    | false =>
      cases h
      exact Nat.le_refl _

theorem calls_foldAll_le {s t : Scheduler Work} {cs : List Completion} (ht : s.foldAll cs = .ok t) :
    Program.callsOfAll t.slots ≤ Program.callsOfAll s.slots + (cs.map fun c => Frame.calls c.frames).sum := by
  induction cs generalizing s with
  | nil =>
    cases ht
    exact Nat.le_refl _
  | cons c rest ih =>
    rw [List.map_cons, List.sum_cons]
    rw [foldAll] at ht
    split at ht
    · cases ht
      exact Nat.le_add_right _ _
    · obtain ⟨u, hu, ht⟩ := Except.exists_of_bind_eq_ok ht
      obtain ⟨o, next, -, hn, rfl⟩ := complete_eq_ok hu
      have hr := ih ht
      have hs := Program.callsOfAll_set_le s.slots c.slot next
      have hx := calls_nextSlot_le hn
      rw [← Frame.calls] at hx
      simp only at hr
      omega

theorem calls_foldBatch_le (share : Nat) {s t : Scheduler Work} (ht : s.foldBatch = .ok t) :
    (Work.group t).calls share ≤ (Work.group s).calls share := by
  have hp := List.mergeSort_perm s.batch fun a b => decide (a.seq ≤ b.seq)
  have hc := calls_foldAll_le (s := { s with batch := [] }) ht
  obtain ⟨hf, hb⟩ := flights_foldBatch ht
  rw [(hp.map _).sum_eq] at hc
  rw [Work.calls_group, Work.calls_group, hf, hb]
  simp only [List.map_nil, List.sum_nil] at hc ⊢
  omega

end Scheduler

namespace Work

theorem spends_dispatchLive (c : Setting) (s : Scheduler Work) (σ : World) :
    (s.dispatchLive c σ).2.allowance = σ.allowance ∧ (s.dispatchLive c σ).1.load ≤ (group s).load := by
  have ha := (Program.steady_cases c s.state).round s.slots (s.scope :: s.outer) (fun _ => false) 0 s.nextSeq σ
  have hr := (Program.load_cases c s.state).round s.slots (s.scope :: s.outer) (fun _ => false) 0 s.nextSeq σ
  refine ⟨ha.allowance, ?_⟩
  rw [Scheduler.dispatchLive, load, load, calls_group, calls_group]
  simp only [Scheduler.flights, List.map_append, List.sum_append]
  omega

/-- One step of a work: every wait that comes to its end is one that was left. -/
theorem Moves.spends {c : Setting} {w w' : Work} {σ τ : World} (h : Moves c w σ w' τ) :
    σ.Spends τ w.load w'.load := by
  induction h with
  | @act e σ τ w h =>
    have hl : (acting e).load = 1 + e.trace.length := rfl
    rw [hl]
    obtain ⟨-, he⟩ | ⟨-, ⟨-, he⟩ | ⟨ha, he⟩ | ⟨-, he⟩ | ⟨latency, -, he⟩⟩ := Execution.advance_cases h
    · cases he
      exact ⟨Nat.le_refl _, Nat.le_refl _⟩
    · have hc := e.load_complete_le σ
      have hs := (e.steady_complete σ).allowance
      rw [← he] at hc hs
      exact World.spends_of_le hs (hc.trans (Nat.le_add_left _ 1))
    · have hc := e.load_complete_le σ.spend
      have hs := (e.steady_complete σ.spend).allowance
      rw [← he] at hc hs
      simp only [World.spend] at hc hs
      exact ⟨by omega, by omega⟩
    · cases he
      exact ⟨Nat.le_refl _, Nat.le_refl _⟩
    · cases he
      exact ⟨Nat.le_refl _, Nat.le_refl _⟩
  | finish _ _ => exact World.spends_abandon _ _ _ _
  | starve _ _ _ => exact World.spends_of_le rfl (Nat.zero_le _)
  | rest _ _ _ => exact ⟨Nat.le_refl _, Nat.le_refl _⟩
  | fail _ _ _ => exact World.spends_abandon _ _ _ _
  | decide _ _ _ _ => exact World.spends_abandon _ _ _ _
  | @go s t σ short _ _ ht _ =>
    obtain ⟨ha, hl⟩ := spends_dispatchLive c t σ
    exact World.spends_of_le ha (hl.trans (Scheduler.calls_foldBatch_le 1 ht))
  | @follow s f rest σ τ w hs _ ih =>
    refine ⟨ih.allowance, ?_⟩
    have hl : w.calls 1 + σ.allowance ≤ f.work.calls 1 + τ.allowance := ih.load
    rw [load, load, calls_group, calls_group]
    simp only [Scheduler.follow, Scheduler.flights, hs.queue, List.cons_append, List.map_cons, List.sum_cons,
      callsOfFlight]
    omega
  | @receive s f rest σ hs _ =>
    obtain ⟨outcome, ho, he⟩ | hst := receive_cases hs.queue
    · apply World.spends_of_le rfl
      rw [he, load, load, calls_group, calls_group]
      simp only [Scheduler.flights, hs.queue, List.cons_append, List.map_cons, List.map_append, List.map_nil,
        List.sum_cons, List.sum_append, List.sum_nil, callsOfFlight, ho, calls]
      omega
    · exact World.spends_of_le rfl (Nat.le_of_eq (hst.calls_eq 1))

end Work

end Agenda
