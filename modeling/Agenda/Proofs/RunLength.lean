import Mathlib
import Agenda.Proofs.FailureReports
import Agenda.Proofs.Origins
import Agenda.Proofs.SearchDepth

/-!
# How long runs are

A transition that succeeds from where the program may not end uses up a call or a binding. Whatever could be started
without one is a condition that does not hold, alone or in the branches of constructs, and that can only fail. Every
action that is dispatched uses up a call of the work it comes from, and what goes on by itself dispatches nothing. So
the text of a program bounds the transitions of its run and the actions dispatched in it.
-/

namespace Agenda

set_option autoImplicit false

namespace Scheduler

theorem slotsFinished_congr {slots slots' : List Program} (h : slots.map Program.isDone = slots'.map Program.isDone)
    (kind : Control) : slotsFinished kind slots = slotsFinished kind slots' := by
  have ha : slots.any Program.isDone = slots'.any Program.isDone := by
    rw [← Function.id_comp Program.isDone, ← List.any_map, ← List.any_map, h]
  have hl : slots.all Program.isDone = slots'.all Program.isDone := by
    rw [← Function.id_comp Program.isDone, ← List.all_map, ← List.all_map, h]
  rw [slotsFinished, slotsFinished, ha, hl]

end Scheduler

namespace Work

/-- A work that can only fail: all that is under way in it fails, and as it is it has not come to its end. -/
inductive Doomed : Work → Prop
  | settled (e : Failure) : Doomed (.settled (.error e))
  | group {s : Scheduler Work} : s.isFinished = false → (∀ c ∈ s.batch, ∃ e, c.outcome = .error e) →
      (∀ f ∈ s.flights, Doomed f.work) → Doomed (.group s)

variable {c : Setting} {w w' : Work} {s t : Scheduler Work} {σ τ : World}

theorem Doomed.inv (h : Doomed (.group s)) :
    s.isFinished = false ∧ (∀ c ∈ s.batch, ∃ e, c.outcome = .error e) ∧ ∀ f ∈ s.flights, f.work.Doomed := by
  cases h with
  | group hn hb hf => exact ⟨hn, hb, hf⟩

theorem Doomed.foldBatch_ne_ok (h : Doomed (.group s)) (hb : s.batch ≠ []) : s.foldBatch ≠ .ok t := by
  obtain ⟨hn, he, -⟩ := h.inv
  have hp := List.mergeSort_perm s.batch fun a b => decide (a.seq ≤ b.seq)
  obtain ⟨d, rest, hd⟩ := List.exists_cons_of_ne_nil fun hm => hb (List.nil_perm.mp (hm ▸ hp))
  obtain ⟨e, ho⟩ := he d (hp.mem_iff.mp (hd ▸ List.mem_cons_self))
  intro ht
  rw [Scheduler.foldBatch, hd, Scheduler.foldAll, if_neg] at ht
  · obtain ⟨u, hu, -⟩ := Except.exists_of_bind_eq_ok ht
    rw [Scheduler.complete, ho] at hu
    cases hu
  · exact Bool.not_eq_true _ ▸ hn

theorem Stirs.doomed (h : Stirs w w') (hw : w.Doomed) : w'.Doomed := by
  induction h with
  | settled outcome => exact hw
  | acting e timer postponed _ => cases hw
  | group fs he hp _ ih =>
    obtain ⟨hn, hb, hf⟩ := hw.inv
    refine .group hn hb ?_
    intro f hm
    obtain ⟨x, hx, h₀, rfl⟩ := exists_of_mem_stirred he hp hm
    exact ih x hx (hf x.1 h₀)

theorem Moves.doomed (h : Moves c w σ w' τ) (hw : w.Doomed) : w'.Doomed := by
  induction h with
  | act _ => cases hw
  | finish _ hf =>
    rw [hw.inv.1] at hf
    cases hf
  | starve _ _ _ => exact .settled _
  | rest _ _ _ => exact (stirs_look _ _).doomed hw
  | fail _ _ _ => exact .settled _
  | decide _ hb ht _ => exact absurd ht (hw.foldBatch_ne_ok hb)
  | go _ hb ht _ => exact absurd ht (hw.foldBatch_ne_ok hb)
  | @follow s f rest σ τ w hs _ ih =>
    obtain ⟨hn, hb, hf⟩ := hw.inv
    refine .group hn hb ?_
    intro g hg
    rcases hs.mem_flights_follow hg with rfl | hg
    · exact ih (hf f hs.mem_flights)
    · exact hf g hg
  | @receive s f rest σ hs _ =>
    obtain ⟨outcome, ho, he⟩ | hst := receive_cases hs.queue
    · obtain ⟨hn, hb, hf⟩ := hw.inv
      rw [he]
      refine .group hn ?_ fun g hg => hf g (hs.mem_flights_of_mem_rest hg)
      intro d hd
      rcases List.mem_append.mp hd with hd | hd
      · exact hb d hd
      · obtain rfl := List.mem_singleton.mp hd
        have hd := hf f hs.mem_flights
        rw [ho] at hd
        cases hd with
        | settled e => exact ⟨e, rfl⟩
    · exact hst.doomed hw

end Work

theorem Machine.Steps.doomed {c : Setting} {m m' : Machine} (h : Steps c m m') (hm : m.main.Doomed) :
    m'.main.Doomed := by
  cases h with
  | move h => exact h.doomed hm
  | takeUp _ _ => exact (Work.stirs_takeUp _).doomed hm
  | wake _ _ _ => exact (Work.stirs_wake _).doomed hm
  | detached _ _ _ => exact hm
  | ring _ _ => exact (Work.stirs_ring _ _).doomed hm

def Frame.steps (frames : List Frame) : Nat := Program.stepsOption (residual frames)

theorem Frame.steps_before (frames : List Frame) (rest : List Program) :
    steps (frames ++ [.before rest]) = steps frames + Program.stepsOfAll rest := by
  rw [steps, residual_concat, wrap, Program.stepsOption_resequence, ← steps]

/-- A launch of the program that can succeed leaves nothing behind or uses up a call or a binding, and it does the
latter where the program may not end. -/
structure Launch.Consumes (l : Launch) (s : State) (p : Program) : Prop where
  remains : l.work.Doomed ∨ Frame.residual l.frames = none ∨ Frame.steps l.frames < p.steps
  used : p.isFinal s = .ok false → l.work.Doomed ∨ Frame.steps l.frames < p.steps

theorem Launch.consumes_of_steps_lt {l : Launch} {p : Program} (h : l.work.Doomed ∨ Frame.steps l.frames < p.steps)
    (s : State) : l.Consumes s p :=
  ⟨h.imp_right .inr, fun _ => h⟩

theorem Launch.Consumes.mono {l : Launch} {s : State} {p q : Program} (h : l.Consumes s q) (hs : q.steps ≤ p.steps)
    (hf : p.isFinal s = .ok false → q.isFinal s = .ok false) : l.Consumes s p := by
  constructor
  · exact h.remains.imp_right fun hr => hr.imp_right fun hl => hl.trans_le hs
  · intro hp
    exact (h.used (hf hp)).imp_right fun hl => hl.trans_le hs

namespace Program

variable {s : State} {p q : Program}

theorem Enters.steps_le (h : p.Enters s q) : q.steps ≤ p.steps := by
  cases h with
  | consequent _ alternate _ => exact steps_consequent_le _ q alternate
  | alternate _ _ _ =>
    rw [steps]
    omega
  | first _ rest =>
    rw [steps]
    exact steps_le_stepsOfAll List.mem_cons_self

theorem Enters.isFinal_eq_false (h : p.Enters s q) (hf : p.isFinal s = .ok false) : q.isFinal s = .ok false := by
  cases h with
  | consequent _ _ hc => rwa [isFinal_consequent hc] at hf
  | alternate _ _ hc => rwa [isFinal_alternate hc] at hf
  | first _ rest =>
    rw [isFinal] at hf
    exact forall_of_anyFinal hf q List.mem_cons_self

theorem startsFinal_eq_true_iff : p.startsFinal s = true ↔ p.isFinal s = .ok true := by
  unfold startsFinal
  split
  · rename_i b hb
    rw [hb, Except.ok.injEq]
  · rename_i e he
    rw [he]
    simp only [reduceCtorEq, Bool.false_eq_true]

theorem isFinal_of_startsFinal_eq_false (hp : p.startsFinal s = false) {rest : List Program}
    (hn : finalityFailure? s (p :: rest) = none) : p.isFinal s = .ok false := by
  unfold finalityFailure? at hn
  unfold startsFinal at hp
  split at hn
  · cases hn
  · rename_i b hb
    rw [hb] at hp ⊢
    exact congrArg Except.ok hp

theorem finalityFailure_tail {rest : List Program} (hn : finalityFailure? s (p :: rest) = none) :
    finalityFailure? s rest = none := by
  unfold finalityFailure? at hn
  split at hn
  · cases hn
  · exact hn

theorem map_isDone_markFinal (s : State) (ps : List Program) :
    (markFinal s ps).map isDone = ps.map (startsFinal s) := by
  rw [markFinal, List.map_map]
  apply List.map_congr_left
  intro p _
  rw [Function.comp_apply]
  cases hf : p.startsFinal s with
  | true => rfl
  | false =>
    cases p with
    | done => cases hf
    | _ => rfl

theorem allFinal_of_startsFinal {ps : List Program} (h : ps.all (startsFinal s) = true) :
    allFinal s ps = .ok true := by
  induction ps with
  | nil => rfl
  | cons p rest ih =>
    rw [List.all_cons, Bool.and_eq_true] at h
    rw [allFinal, startsFinal_eq_true_iff.mp h.1]
    exact ih h.2

theorem anyFinal_of_startsFinal {ps : List Program} (hn : finalityFailure? s ps = none)
    (h : ps.any (startsFinal s) = true) : anyFinal s ps = .ok true := by
  induction ps with
  | nil => cases h
  | cons p rest ih =>
    rw [anyFinal]
    cases hp : p.startsFinal s with
    | true =>
      rw [startsFinal_eq_true_iff.mp hp]
      rfl
    | false =>
      rw [isFinal_of_startsFinal_eq_false hp hn]
      rw [List.any_cons, hp, Bool.false_or] at h
      exact ih (finalityFailure_tail hn) h

theorem isFinal_of_slotsFinished {kind : Control} {branches : List Program} (hk : kind = .conc ∨ kind = .either)
    (hn : finalityFailure? s branches = none) (hf : Scheduler.slotsFinished kind (markFinal s branches) = true) :
    (control kind branches).isFinal s = .ok true := by
  have hm := map_isDone_markFinal s branches
  rcases hk with rfl | rfl
  · rw [Scheduler.slotsFinished, if_neg (by rintro ⟨⟩), ← Function.id_comp isDone, ← List.all_map, hm, List.all_map,
      Function.id_comp] at hf
    rw [isFinal]
    exact allFinal_of_startsFinal hf
  · rw [Scheduler.slotsFinished, if_pos rfl, ← Function.id_comp isDone, ← List.any_map, hm, List.any_map,
      Function.id_comp] at hf
    rw [isFinal]
    exact anyFinal_of_startsFinal hn hf

theorem steps_pos_of_plan {d : Domain} {limit : Option Nat} {plan : Plan} (hf : p.isFinal s = .ok false)
    (h : p.plan d limit s = .ok (some plan)) : 0 < p.steps := by
  obtain ⟨places, rest, hc, -, -⟩ := answers_search d limit p s 0 [] h
  generalize Plan.mk rest plan.state = found at hc
  cases hc with
  | stop ht =>
    rw [hf] at ht
    cases ht
  | step _ hs hi _ => exact Nat.zero_lt_of_lt (steps_remaining_lt hf hs (List.mem_of_getElem? hi))

theorem Remnant.plan_body {body : Program} {rest : List Program} (h : Remnant (.control .plan (body :: rest))) :
    rest = [] := by
  have ha := (Program.validate_control h.validate_control).1
  rw [checkArity, if_pos rfl] at ha
  split at ha
  · rename_i hl
    exact List.length_eq_zero_iff.mp (Nat.succ.inj hl)
  · cases ha

theorem consumes_bind {l : Launch} {init : Program} (h : l.Consumes s init) (var : String) :
    (l.within (.bind var)).Consumes s (.bind var init) := by
  apply Launch.consumes_of_steps_lt
  refine h.remains.imp_right ?_
  intro hr
  rw [Launch.within, Frame.steps, Frame.residual_concat, Frame.wrap, steps]
  cases ht : Frame.residual l.frames with
  | none => exact Nat.succ_pos _
  | some q =>
    rw [ht, Frame.steps, ht] at hr
    rw [Option.map_some, stepsOption, steps]
    rcases hr with ⟨⟨⟩⟩ | hr
    exact Nat.succ_lt_succ hr

theorem consumes_cases (c : Setting) (s : State) :
    DispatchCases c s
      (fun p _ _ l => Remnant p → l.Consumes s p)
      (fun ps _ final _ _ _ r => final = startsFinal s → r.slots.map isDone = ps.map (startsFinal s) ∧
        ((∀ p ∈ ps, Remnant p) → finalityFailure? s ps = none → stepsOfAll ps = 0 →
          ∀ f ∈ r.flights, f.work.Doomed)) where
  failed _ _ _ e _ _ := Launch.consumes_of_steps_lt (.inl (.settled e)) s
  finished _ _ _ h _ := by
    refine ⟨.inr (.inl rfl), ?_⟩
    intro hf
    rw [h.isFinal] at hf
    cases hf
  call _ _ _ _ _ _ _ := by
    apply Launch.consumes_of_steps_lt
    rw [steps]
    exact .inr Nat.one_pos
  plan body rest _ _ plan hp hr := by
    obtain rfl := hr.plan_body
    refine ⟨.inr (.inl rfl), ?_⟩
    intro hf
    rw [isFinal_plan] at hf
    have hb := steps_pos_of_plan hf hp
    right
    rw [steps]
    exact hb.trans_le (steps_le_stepsOfAll List.mem_cons_self)
  enter _ _ _ _ _ he h hp := (h (hereditary_remnant.enters he hp)).mono he.steps_le he.isFinal_eq_false
  skip p rest _ _ _ hf h hp := by
    rw [hereditary_remnant.block, List.forall_mem_cons] at hp
    apply (h ((hereditary_remnant.block rest).mpr hp.2)).mono
    · rw [steps, steps, stepsOfAll]
      omega
    · rw [isFinal_block_cons, hf]
      exact id
  before p rest _ _ l hf h hp := by
    rw [hereditary_remnant.block, List.forall_mem_cons] at hp
    apply Launch.consumes_of_steps_lt
    refine ((h hp.1).used hf).imp_right ?_
    intro hl
    rw [Launch.within, Frame.steps_before, steps, stepsOfAll]
    omega
  bind var init _ _ _ h hp := consumes_bind (h ((hereditary_remnant.bind var init).mp hp)) var
  decided _ _ _ _ hk hn hd _ _ := by
    refine ⟨.inr (.inl rfl), ?_⟩
    intro hf
    rw [isFinal_of_slotsFinished hk hn hd] at hf
    cases hf
  group kind branches _ _ r _ hn hd _ h hp := by
    refine ⟨.inr (.inl rfl), ?_⟩
    intro _
    obtain ⟨hs, hf⟩ := h rfl
    rcases Nat.eq_zero_or_pos (stepsOfAll branches) with hz | hpos
    · left
      refine .group ?_ (List.forall_mem_nil _) ?_
      · rw [Scheduler.isFinished, ← hd]
        exact Scheduler.slotsFinished_congr (hs.trans (map_isDone_markFinal s branches).symm) kind
      · intro f hm
        rw [Scheduler.flights, List.append_nil] at hm
        exact hf (hereditary_remnant.control kind branches hp) hn hz f hm
    · right
      rwa [steps]
  nil _ _ _ _ _ _ := ⟨rfl, fun _ _ _ => List.forall_mem_nil _⟩
  done p rest _ _ _ _ _ r hf h he := by
    obtain ⟨hs, hd⟩ := h he
    subst he
    constructor
    · rw [Round.keep, List.map_cons, List.map_cons, hs, hf]
      rfl
    · intro hr hn hz
      rw [stepsOfAll] at hz
      exact hd (List.forall_mem_cons.mp hr).2 (finalityFailure_tail hn) (by omega)
  mark p rest _ _ _ _ _ r hf hm h he := by
    obtain ⟨hs, hd⟩ := h he
    subst he
    constructor
    · rw [Round.keep, List.map_cons, List.map_cons, hs, hf]
      cases p with
      | blocked => rfl
      | done => cases hf
      | _ => cases hm
    · intro hr hn hz
      rw [stepsOfAll] at hz
      exact hd (List.forall_mem_cons.mp hr).2 (finalityFailure_tail hn) (by omega)
  start p rest _ _ _ _ _ l r hf _ hl h he := by
    obtain ⟨hs, hd⟩ := h he
    subst he
    constructor
    · rw [Round.start, List.map_cons, List.map_cons, hs, hf]
      rfl
    · intro hr hn hz
      rw [stepsOfAll] at hz
      rw [List.forall_mem_cons] at hr
      refine List.forall_mem_cons.mpr ⟨?_, hd hr.2 (finalityFailure_tail hn) (by omega)⟩
      -- a branch without calls and bindings cannot use one up
      rcases (hl hr.1).used (isFinal_of_startsFinal_eq_false hf hn) with hw | hw
      · exact hw
      · omega

theorem steps_continuation_lt {c : Setting} {σ : World} {t : Successor} (hr : Remnant p) (hf : p.isFinal s = .ok false)
    (h : (p.transition c s σ).1 = .ok t) : stepsOption t.continuation < p.steps := by
  obtain ⟨o, ho, rfl⟩ := transition_eq_ok h
  rw [Frame.continuation_resume, ← Frame.steps]
  rcases ((consumes_cases c s).dispatch p [] σ hr).used hf with hd | hl
  · have hs := Machine.settle_induction (c := c) (fun _ _ hm hs => Machine.Steps.doomed hs hm) (p.started c s σ) hd
    rw [ho] at hs
    cases hs
  · exact hl

end Program

/-- From one world to the next, the actions dispatched and the calls that remain add up to no more. -/
def World.Draws (σ τ : World) (before after : Nat) : Prop :=
  τ.dispatched.length + after ≤ σ.dispatched.length + before

theorem World.draws_of_dispatched_eq {σ τ : World} (h : τ.dispatched = σ.dispatched) {before after : Nat}
    (hl : after ≤ before) : σ.Draws τ before after := by
  rw [Draws, h]
  exact Nat.add_le_add_left hl _

theorem Work.draws_perform (scopes : List Nat) (updates : List Update) (trace : List BoundAction) (s : State)
    (bound : BoundAction) (σ : World) :
    σ.Draws (perform scopes updates trace s bound σ).2 (trace.length + 1)
      ((perform scopes updates trace s bound σ).1.calls 0) := by
  obtain ⟨e, he⟩ | ⟨-, he⟩ := perform_cases scopes updates trace s bound σ
  · rw [he]
    exact World.draws_of_dispatched_eq rfl (Nat.zero_le _)
  · rw [he, World.Draws, World.dispatched_record_dispatched, List.length_append, List.length_singleton]
    simp only [calls]
    omega

theorem Execution.draws_complete (e : Execution) (σ : World) :
    σ.Draws (e.complete σ).2 e.trace.length ((e.complete σ).1.calls 0) := by
  have hr := σ.dispatched_record_completed e.bound.record σ.clock
  obtain ⟨message, he⟩ | ⟨result, -, he⟩ | ⟨bound, trace, ht, he⟩ := e.complete_cases σ
  · rw [he]
    exact World.draws_of_dispatched_eq hr (Nat.zero_le _)
  · rw [he]
    exact World.draws_of_dispatched_eq hr (Nat.zero_le _)
  · have hp := Work.draws_perform e.scopes (e.updates ++ [.effect e.bound]) trace e.after bound
      (σ.record (.completed e.bound.record σ.clock))
    rw [he, ht, List.length_cons]
    rwa [World.Draws, hr] at hp

theorem Program.draws_cases (c : Setting) (s : State) :
    DispatchCases c s
      (fun p _ σ l => σ.Draws l.world p.calls (l.work.calls 0 + Frame.calls l.frames))
      (fun ps _ _ _ _ σ r =>
        σ.Draws r.world (callsOfAll ps) (callsOfAll r.slots + (r.flights.map (Work.callsOfFlight 0)).sum)) where
  failed _ _ _ _ _ := World.draws_of_dispatched_eq rfl (Nat.zero_le _)
  finished _ _ _ _ := World.draws_of_dispatched_eq rfl (Nat.zero_le _)
  call _ _ scopes σ bound _ := Work.draws_perform scopes [] [] s bound σ
  plan body rest scopes σ plan hp := by
    have hl := length_trace_plan c.domain c.planLimit body s hp
    have hb : (control .plan (body :: rest)).calls = body.calls + callsOfAll rest := by simp only [calls, callsOfAll]
    obtain ⟨-, he⟩ | ⟨bound, trace, ht, he⟩ := Work.performAll_cases scopes s σ plan.trace
    · simp only [he]
      exact World.draws_of_dispatched_eq rfl (Nat.zero_le _)
    · simp only [he]
      have hw := Work.draws_perform scopes [] trace s bound σ
      rw [ht, List.length_cons] at hl
      rw [World.Draws] at hw ⊢
      change _ + (_ + 0) ≤ _
      omega
  enter _ _ _ _ _ he h := h.trans (Nat.add_le_add_left he.calls_le _)
  skip p rest _ _ l _ h := by
    refine h.trans (Nat.add_le_add_left ?_ _)
    simp [calls, callsOfAll]
  before p rest _ _ l _ h := by
    rw [World.Draws] at h ⊢
    simp only [Launch.within, Frame.calls_before, calls, callsOfAll]
    omega
  bind var init _ _ l h := by
    rwa [Launch.within, Frame.calls_bind, calls]
  decided kind branches _ σ _ _ _ _ := by
    apply World.draws_of_dispatched_eq rfl
    rw [Launch.group, Work.calls_group, calls]
    exact callsOfAll_markFinal_le s branches
  group kind branches _ _ r _ _ _ _ h := by
    rw [Launch.group, Work.calls_group, calls, Scheduler.flights, List.append_nil]
    exact h
  nil _ _ _ _ _ := Nat.le_refl _
  done p rest _ _ _ _ _ r _ h := by
    rw [World.Draws] at h ⊢
    simp only [Round.keep, callsOfAll, calls]
    omega
  mark p rest _ _ _ _ _ r _ _ h := by
    rw [World.Draws] at h ⊢
    simp only [Round.keep, callsOfAll]
    omega
  start p rest _ _ _ _ _ l r _ _ hl h := by
    rw [World.Draws] at hl h ⊢
    simp only [Round.start, callsOfAll, calls, List.map_cons, List.sum_cons, Work.callsOfFlight]
    omega

namespace Work

theorem draws_dispatchLive (c : Setting) (s : Scheduler Work) (σ : World) :
    σ.Draws (s.dispatchLive c σ).2 ((group s).calls 0) ((s.dispatchLive c σ).1.calls 0) := by
  have hr := (Program.draws_cases c s.state).round s.slots (s.scope :: s.outer) (fun _ => false) 0 s.nextSeq σ
  rw [World.Draws] at hr ⊢
  rw [Scheduler.dispatchLive, calls_group, calls_group]
  simp only [Scheduler.flights, List.map_append, List.sum_append]
  omega

theorem Moves.draws {c : Setting} {w w' : Work} {σ τ : World} (h : Moves c w σ w' τ) :
    σ.Draws τ (w.calls 0) (w'.calls 0) := by
  induction h with
  | @act e σ τ w h =>
    rw [calls, Nat.zero_add]
    obtain ⟨allowance, he⟩ | ⟨timer, postponed, rfl, hτ⟩ := Execution.advance_ends_or_stays h
    · have hc := e.draws_complete { σ with allowance }
      rwa [← he] at hc
    · exact World.draws_of_dispatched_eq hτ.dispatched (Nat.zero_add _).le
  | finish _ _ => exact World.draws_of_dispatched_eq (World.dispatched_abandon _ _ _) (Nat.zero_le _)
  | starve _ _ _ => exact World.draws_of_dispatched_eq rfl (Nat.zero_le _)
  | rest _ _ _ => exact World.draws_of_dispatched_eq rfl ((stirs_look _ _).calls_eq 0).le
  | fail _ _ _ => exact World.draws_of_dispatched_eq (World.dispatched_abandon _ _ _) (Nat.zero_le _)
  | decide _ _ _ _ => exact World.draws_of_dispatched_eq (World.dispatched_abandon _ _ _) (Nat.zero_le _)
  | @go s t σ short _ _ ht _ =>
    exact (draws_dispatchLive c t σ).trans (Nat.add_le_add_left (Scheduler.calls_foldBatch_le 0 ht) _)
  | @follow s f rest σ τ w hs _ ih =>
    rw [World.Draws] at ih ⊢
    rw [calls_group, calls_group]
    simp only [Scheduler.follow, Scheduler.flights, hs.queue, List.cons_append, List.map_cons, List.sum_cons,
      callsOfFlight]
    omega
  | @receive s f rest σ hs _ =>
    apply World.draws_of_dispatched_eq rfl
    obtain ⟨outcome, ho, he⟩ | hst := receive_cases hs.queue
    · rw [he, calls_group, calls_group]
      simp only [Scheduler.flights, hs.queue, List.cons_append, List.map_cons, List.map_append, List.map_nil,
        List.sum_cons, List.sum_append, List.sum_nil, callsOfFlight, ho, calls]
      omega
    · exact (hst.calls_eq 0).le

end Work

theorem Machine.Steps.draws {c : Setting} {m m' : Machine} (h : Steps c m m') (hm : m.Scoped) :
    m.world.Draws m'.world (m.main.calls 0) (m'.main.calls 0) := by
  cases h with
  | move h => exact h.draws
  | takeUp _ _ => exact World.draws_of_dispatched_eq rfl ((Work.stirs_takeUp _).calls_eq 0).le
  | wake _ _ _ => exact World.draws_of_dispatched_eq rfl ((Work.stirs_wake _).calls_eq 0).le
  | detached _ he hd => exact World.draws_of_dispatched_eq (hm.move_detached he hd 0).2.2 (Nat.le_refl _)
  | ring _ _ => exact World.draws_of_dispatched_eq rfl ((Work.stirs_ring _ _).calls_eq 0).le

namespace Program

variable {c : Setting} {p q : Program} {s s' : State} {σ τ : World}

theorem draws_transition (hσ : σ.Attributed) :
    σ.Draws (p.transition c s σ).2 p.calls (Frame.calls (p.dispatch c s [] σ).frames) := by
  have keep : ∀ m m' : Machine,
      m.Attributed ∧ σ.Draws m.world p.calls (m.main.calls 0 + Frame.calls (p.dispatch c s [] σ).frames) →
      m.Steps c m' →
      m'.Attributed ∧ σ.Draws m'.world p.calls (m'.main.calls 0 + Frame.calls (p.dispatch c s [] σ).frames) := by
    rintro m m' ⟨ha, hm⟩ hs
    have hl := hs.draws ha.toScoped
    rw [World.Draws] at hl hm ⊢
    exact ⟨hs.attributed ha, by omega⟩
  obtain ⟨-, hm⟩ := Machine.settle_induction keep (p.started c s σ)
    ⟨(attributed_started hσ).1, (draws_cases c s).dispatch p [] σ⟩
  rw [world_transition]
  exact (Nat.add_le_add_left (Nat.le_add_left _ _) _).trans hm

theorem draws_transition_ok (hσ : σ.Attributed) {t : Successor} (h : (p.transition c s σ).1 = .ok t) :
    σ.Draws (p.transition c s σ).2 p.calls t.remaining.calls := by
  obtain ⟨o, -, rfl⟩ := transition_eq_ok h
  have hd := draws_transition (c := c) (p := p) (s := s) hσ
  rw [Frame.calls, ← Frame.continuation_resume _ o] at hd
  unfold Successor.remaining
  revert hd
  cases (Frame.resume (p.dispatch c s [] σ).frames o).continuation with
  | none => exact id
  | some q => exact id

/-- So many transitions one after the other, each from where the program may not end. -/
inductive Strides (c : Setting) : Nat → Program → State → World → Program → State → World → Prop
  | refl (p : Program) (s : State) (σ : World) : Strides c 0 p s σ p s σ
  | step {n : Nat} {p q : Program} {s s' : State} {σ τ υ : World} {t : Successor} : p.isFinal s = .ok false →
      p.transition c s σ = (.ok t, τ) → Strides c n t.remaining t.state τ q s' υ → Strides c (n + 1) p s σ q s' υ

theorem Strides.inv_done {n : Nat} (h : Strides c n .done s σ q s' τ) : n = 0 ∧ q = .done ∧ τ = σ := by
  cases h with
  | refl => exact ⟨rfl, rfl, rfl⟩
  | step hf _ _ => cases hf

theorem drive_remaining (c : Setting) (t : Successor) (σ : World) :
    t.remaining.drive c t.state σ =
      match t.continuation with
      | none => ⟨.ok t.state, σ⟩
      | some q => q.drive c t.state σ := by
  unfold Successor.remaining
  cases t.continuation with
  | none =>
    rw [Option.getD_none, drive_eq]
    rfl
  | some q => rfl

theorem Strides.drive_eq {n : Nat} (h : Strides c n p s σ q s' τ) : p.drive c s σ = q.drive c s' τ := by
  induction h with
  | refl p s σ => rfl
  | @step n p q s s' σ τ υ t hf ht _ ih =>
    have hd := Program.drive_eq c p s σ
    rw [hf, ht] at hd
    exact hd.trans ((drive_remaining c t τ).symm.trans ih)

/-- Each of the transitions uses up a call or a binding, and each action that they dispatch a call. -/
theorem Strides.bounds {n : Nat} (h : Strides c n p s σ q s' τ) (hp : Remnant p) (hσ : σ.Attributed) :
    n + q.steps ≤ p.steps ∧ τ.dispatched.length + q.calls ≤ σ.dispatched.length + p.calls := by
  induction h with
  | refl p s σ => exact ⟨(Nat.zero_add _).le, Nat.le_refl _⟩
  | @step n p q s s' σ τ υ t hf ht hs ih =>
    have hr : (p.transition c s σ).1 = .ok t := congrArg Prod.fst ht
    have hl := steps_continuation_lt hp hf hr
    have hd : τ.dispatched.length + t.remaining.calls ≤ σ.dispatched.length + p.calls := by
      have hd := draws_transition_ok hσ hr
      rwa [ht] at hd
    have ha : τ.Attributed := by
      have ha := attributed_transition (c := c) (p := p) (s := s) hσ
      rwa [ht] at ha
    rw [← steps_remaining] at hl
    cases hc : t.continuation with
    | none =>
      -- nothing remains, and from there no transition goes on
      have he : t.remaining = .done := by rw [Successor.remaining, hc, Option.getD_none]
      rw [he] at hs hd hl
      obtain ⟨rfl, rfl, rfl⟩ := hs.inv_done
      exact ⟨by omega, hd⟩
    | some r =>
      have he : t.remaining = r := by rw [Successor.remaining, hc, Option.getD_some]
      rw [he] at hd hl ih
      obtain ⟨hn, hk⟩ := ih (hereditary_remnant.transition hp hr hc) ha
      exact ⟨by omega, by omega⟩

theorem exists_strides_drive (c : Setting) (p : Program) (s : State) (σ : World) :
    ∃ n q s' τ, Strides c n p s σ q s' τ ∧ (q.isFinal s' = .ok true ∧ p.drive c s σ = ⟨.ok s', τ⟩ ∨
      ∃ e υ, Halts c q s' τ e υ ∧ p.drive c s σ = ⟨.error ⟨e, q, s'⟩, υ⟩) := by
  fun_induction drive c p s σ with
  | case1 p s σ e he => exact ⟨0, p, s, σ, .refl p s σ, .inr ⟨e, σ, .finality he, rfl⟩⟩
  | case2 p s σ hf => exact ⟨0, p, s, σ, .refl p s σ, .inl ⟨hf, rfl⟩⟩
  | case3 p s σ hf e τ ht => exact ⟨0, p, s, σ, .refl p s σ, .inr ⟨e, τ, .transition hf ht, rfl⟩⟩
  | case4 p s σ hf t τ ht hc =>
    refine ⟨1, .done, t.state, τ, .step hf ht ?_, .inl ⟨rfl, rfl⟩⟩
    rw [Successor.remaining, hc]
    exact .refl _ _ _
  | case5 p s σ hf t τ ht q hc ih =>
    obtain ⟨n, r, s', υ, hs, hr⟩ := ih
    refine ⟨n + 1, r, s', υ, .step hf ht ?_, hr⟩
    rwa [Successor.remaining, hc]

theorem length_dispatched_drive_le (c : Setting) (p : Program) (s : State) {σ : World} (hσ : σ.Attributed) :
    (p.drive c s σ).world.dispatched.length ≤ σ.dispatched.length + p.calls := by
  apply drive_induction
    (P := fun q τ => τ.Attributed ∧ τ.dispatched.length + q.calls ≤ σ.dispatched.length + p.calls)
    (Q := fun τ => τ.dispatched.length ≤ σ.dispatched.length + p.calls)
  · rintro q τ ⟨-, hl⟩
    omega
  · rintro q s τ ⟨ha, hl⟩
    have hd := draws_transition (c := c) (p := q) (s := s) ha
    rw [World.Draws] at hd
    omega
  · rintro q s τ t r ⟨ha, hl⟩ ht hc
    have hd := draws_transition_ok ha ht
    rw [World.Draws, Successor.remaining, hc, Option.getD_some] at hd
    exact ⟨attributed_transition ha, by omega⟩
  · exact ⟨hσ, Nat.le_refl _⟩

end Program

theorem World.length_history_le (σ : World) : σ.history.length ≤ σ.dispatched.length := by
  rw [history_eq, List.length_map]
  exact List.length_filter_le _ _

namespace Program

/-- The text of a valid program bounds its run. However many transitions the run has made, their number and the calls
and bindings that remain are together no more than the program has; and the actions dispatched by then and the calls
that remain are no more than the program has calls. After so many transitions the run is over. All in all it dispatches
no more actions than the program has calls, with those of plans and of branches that are given up, also when all that
goes on by itself is awaited after it. -/
theorem run_bounded_by_text (c : Setting) {p : Program} (s : State) (hv : p.validate = .ok ()) :
    (∀ n q s' τ, Strides c n p s c.initial q s' τ → n + q.steps ≤ p.steps ∧ τ.dispatched.length + q.calls ≤ p.calls ∧
      q.drive c s' τ = p.run c s) ∧
    (∃ n q s' τ, Strides c n p s c.initial q s' τ ∧ n ≤ p.steps ∧
      (q.isFinal s' = .ok true ∧ p.run c s = ⟨.ok s', τ⟩ ∨
        ∃ e υ, Halts c q s' τ e υ ∧ p.run c s = ⟨.error ⟨e, q, s'⟩, υ⟩)) ∧
    (p.run c s).world.dispatched.length ≤ p.calls ∧ (p.run c s).history.length ≤ p.calls ∧
    ∀ time, ((p.run c s).world.drain c time).dispatched.length ≤ p.calls ∧
      ((p.run c s).world.drain c time).history.length ≤ p.calls := by
  have hstart : c.initial.dispatched.length = 0 := rfl
  have hb : ∀ n q s' τ, Strides c n p s c.initial q s' τ →
      n + q.steps ≤ p.steps ∧ τ.dispatched.length + q.calls ≤ p.calls := by
    intro n q s' τ h
    have hb := h.bounds (.valid hv) (World.attributed_initial c)
    rwa [hstart, Nat.zero_add] at hb
  have hd : (p.run c s).world.dispatched.length ≤ p.calls := by
    have hd := length_dispatched_drive_le c p s (World.attributed_initial c)
    rwa [hstart, Nat.zero_add, ← run_of_validate c s hv] at hd
  refine ⟨?_, ?_, hd, (World.length_history_le _).trans hd, ?_⟩
  · intro n q s' τ h
    obtain ⟨hn, hc⟩ := hb n q s' τ h
    exact ⟨hn, hc, by rw [run_of_validate c s hv, h.drive_eq]⟩
  · obtain ⟨n, q, s', τ, h, he⟩ := exists_strides_drive c p s c.initial
    have hn := (hb n q s' τ h).1
    rw [← run_of_validate c s hv] at he
    exact ⟨n, q, s', τ, h, by omega, he⟩
  · intro time
    have ht : ((p.run c s).world.drain c time).dispatched.length ≤ p.calls := by
      rwa [((attributed_run c p s).drain c time).2]
    exact ⟨ht, (World.length_history_le _).trans ht⟩

/-- A plan wins a race whose loser goes on by itself, and its last result is bound. -/
def planBeatsCount : Program :=
  .block [.bind "x" (.control .either
      [.control .plan [.block [.call "Inc" [("ms", .const (.int 1))], .call "Inc" [("ms", .const (.int 1))]]],
        .call "Inc" [("key", .const (.text "lost")), ("ms", .const (.int 200))]]),
    .call "Put" [("value", .const .null)]]

theorem run_bounded_by_text_planBeatsCount :
    planBeatsCount.steps = 5 ∧ planBeatsCount.calls = 4 ∧
    (planBeatsCount.run Setting.standard {}).world.dispatched.length = 4 ∧
    (∃ n q s' τ, Strides Setting.standard n planBeatsCount {} {} q s' τ ∧ n ≤ 5 ∧
      (q.isFinal s' = .ok true ∧ planBeatsCount.run Setting.standard {} = ⟨.ok s', τ⟩ ∨
        ∃ e υ, Halts Setting.standard q s' τ e υ ∧ planBeatsCount.run Setting.standard {} = ⟨.error ⟨e, q, s'⟩, υ⟩)) ∧
    ∀ time, ((planBeatsCount.run Setting.standard {}).world.drain Setting.standard time).dispatched.length ≤ 4 := by
  obtain ⟨-, hr, -, -, hd⟩ := run_bounded_by_text Setting.standard (p := planBeatsCount) {} rfl
  refine ⟨rfl, rfl, ?_, hr, fun time => (hd time).1⟩
  rw [run_of_validate _ _ rfl, drive_eq]
  conv in drive _ _ _ _ => rw [drive_eq]
  cbv

end Program

end Agenda
