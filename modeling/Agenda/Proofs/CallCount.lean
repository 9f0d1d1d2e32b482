import Mathlib
import Agenda.Proofs.Accounting
import Agenda.Proofs.Calls

/-!
# Counting calls

A program without conditions, choices, races and plans takes all of its calls. Until a call is dispatched it stands in
what remains of the program, so the number of actions dispatched and the number of calls that remain add up to the same
at every step, unless something fails.
-/

namespace Agenda

set_option autoImplicit false

/-- Whether a call is taken does not depend on the state: of the constructs there is only `conc`. -/
structure Vocabulary.Unconditional (v : Vocabulary) : Prop where
  control : ∀ kind, v.control kind = true → kind = .conc
  branch : v.branch = false
  test : v.test = false

namespace Vocabulary.Unconditional

variable {v : Vocabulary}

theorem not_branch (hv : v.Unconditional) (condition : Expr) (p : Program) (alternate : Option Program) :
    (Program.branch condition p alternate).keepsTo v = false := by
  cases alternate <;> simp [Program.keepsTo, hv.branch]

theorem not_test (hv : v.Unconditional) (condition : Expr) : (Program.test condition).keepsTo v = false := by
  rw [Program.keepsTo, hv.test]

theorem no_race (hv : v.Unconditional) : v.control .either = false := by
  cases h : v.control .either with
  | false => rfl
  | true => cases hv.control .either h

end Vocabulary.Unconditional

namespace Program

mutual
theorem calls_eq_zero_of_isFinal {v : Vocabulary} (hv : v.Unconditional) {s : State} :
    ∀ p : Program, p.keepsTo v = true → p.isFinal s = .ok true → p.calls = 0
  | .block statements, hp, hf => by
    rw [keepsTo] at hp
    rw [isFinal] at hf
    rw [calls]
    exact callsOfAll_eq_zero_of_allFinal hv statements hp hf
  | .branch condition p alternate, hp, _ => by
    rw [hv.not_branch] at hp
    cases hp
  | .test condition, hp, _ => by
    rw [hv.not_test] at hp
    cases hp
  | .call _ _, _, hf => by
    rw [isFinal] at hf
    cases hf
  | .bind _ _, _, hf => by
    rw [isFinal] at hf
    cases hf
  | .control kind branches, hp, hf => by
    rw [keepsTo, Bool.and_eq_true] at hp
    obtain rfl := hv.control kind hp.1
    rw [isFinal] at hf
    rw [calls]
    exact callsOfAll_eq_zero_of_allFinal hv branches hp.2 hf
  | .done, _, _ => rfl
  | .blocked, _, _ => rfl

theorem callsOfAll_eq_zero_of_allFinal {v : Vocabulary} (hv : v.Unconditional) {s : State} :
    ∀ ps : List Program, keepToAll v ps = true → allFinal s ps = .ok true → callsOfAll ps = 0
  | [], _, _ => rfl
  | p :: rest, hp, hf => by
    rw [keepToAll, Bool.and_eq_true] at hp
    rw [allFinal] at hf
    obtain ⟨final, hq, hf⟩ := Except.exists_of_bind_eq_ok hf
    cases final with
    | false => cases hf
    | true => rw [callsOfAll, calls_eq_zero_of_isFinal hv p hp.1 hq, callsOfAll_eq_zero_of_allFinal hv rest hp.2 hf]
end

theorem calls_eq_zero_of_startsFinal {v : Vocabulary} (hv : v.Unconditional) {s : State} {p : Program}
    (hp : p.keepsTo v = true) (hf : p.startsFinal s = true) : p.calls = 0 := by
  unfold startsFinal at hf
  split at hf
  · rename_i final h
    rw [hf] at h
    exact calls_eq_zero_of_isFinal hv p hp h
  · cases hf

theorem isMark_of_isDone {p : Program} (h : p.isDone = true) : p.isMark = true := by
  cases p with
  | done => rfl
  | _ => cases h

theorem callsOfAll_of_all_isDone {ps : List Program} (h : ps.all isDone = true) : callsOfAll ps = 0 := by
  induction ps with
  | nil => rfl
  | cons p rest ih =>
    rw [List.all_cons, Bool.and_eq_true] at h
    rw [callsOfAll, calls_of_isMark (isMark_of_isDone h.1), ih h.2]

theorem callsOfAll_markFinal {v : Vocabulary} (hv : v.Unconditional) (s : State) {ps : List Program}
    (hp : ∀ p ∈ ps, p.keepsTo v = true) : callsOfAll (markFinal s ps) = callsOfAll ps := by
  induction ps with
  | nil => rfl
  | cons p rest ih =>
    have hr := ih fun q hq => hp q (List.mem_cons_of_mem p hq)
    rw [markFinal, List.map_cons, callsOfAll, callsOfAll, ← markFinal, hr]
    congr 1
    split
    · rename_i hf
      exact (calls_eq_zero_of_startsFinal hv (hp p List.mem_cons_self) hf).symm
    · rfl

theorem callsOfAll_set {ps : List Program} {i : Nat} (h : ps[i]? = some .blocked) (p : Program) :
    callsOfAll (ps.set i p) = callsOfAll ps + p.calls := by
  induction ps generalizing i with
  | nil => cases h
  | cons q rest ih =>
    cases i with
    | zero =>
      cases h
      rw [List.set_cons_zero, callsOfAll, callsOfAll, calls]
      omega
    | succ i =>
      rw [List.set_cons_succ, callsOfAll, callsOfAll, ih h]
      omega

end Program

/-- From one world to the next, the actions dispatched and the calls that remain add up to the same. -/
def World.Keeps (σ τ : World) (before after : Nat) : Prop :=
  τ.dispatched.length + after = σ.dispatched.length + before

theorem Work.keeps_perform {scopes : List Nat} {updates : List Update} {trace : List BoundAction} {s : State}
    {bound : BoundAction} {σ : World} (h : (perform scopes updates trace s bound σ).1.Whole) :
    σ.Keeps (perform scopes updates trace s bound σ).2 (trace.length + 1)
      ((perform scopes updates trace s bound σ).1.calls 0) := by
  obtain ⟨e, he⟩ | ⟨-, he⟩ := perform_cases scopes updates trace s bound σ
  · rw [he] at h
    exact absurd h (not_whole_error e)
  · rw [he, World.Keeps, World.dispatched_record_dispatched, List.length_append, List.length_singleton]
    simp only [calls]
    omega

theorem Execution.keeps_complete {e : Execution} {σ : World} (h : (e.complete σ).1.Whole) :
    σ.Keeps (e.complete σ).2 ((Work.acting e).calls 0) ((e.complete σ).1.calls 0) := by
  rw [Work.calls]
  obtain ⟨message, he⟩ | ⟨result, ht, he⟩ | ⟨bound, trace, ht, he⟩ := e.complete_cases σ
  · rw [he] at h
    exact absurd h (Work.not_whole_error _)
  · rw [he, ht, World.Keeps, World.dispatched_record_completed]
    rfl
  · rw [he] at h ⊢
    rw [ht, List.length_cons, Nat.zero_add]
    have hb := Work.keeps_perform h
    rwa [World.Keeps, World.dispatched_record_completed] at hb

theorem Program.keeps_cases {v : Vocabulary} (hv : v.Unconditional) (c : Setting) (s : State) :
    DispatchCases c s
      (fun p _ σ l => p.keepsTo v = true → l.work.Whole →
        σ.Keeps l.world p.calls (l.work.calls 0 + Frame.calls l.frames))
      (fun ps _ final _ _ σ r => (∀ p ∈ ps, p.keepsTo v = true) → (∀ p ∈ ps, final p = true → p.calls = 0) →
        (∀ f ∈ r.flights, f.work.Whole) →
        σ.Keeps r.world (callsOfAll ps) (callsOfAll r.slots + (r.flights.map (Work.callsOfFlight 0)).sum)) where
  failed _ _ _ e _ _ h := absurd h (Work.not_whole_error e)
  finished p _ σ h hp _ := by
    cases h with
    | empty => rfl
    | done => rfl
    | pass q _ =>
      rw [hv.not_branch] at hp
      cases hp
    | test _ =>
      rw [hv.not_test] at hp
      cases hp
  call _ _ scopes σ bound _ _ h := Work.keeps_perform h
  plan body rest _ _ _ _ hp _ := by
    rw [keepsTo_control_iff] at hp
    cases hv.control .plan hp.1
  enter _ _ _ _ _ he _ hp _ := by
    cases he with
    | consequent _ _ _ =>
      rw [hv.not_branch] at hp
      cases hp
    | alternate _ _ _ =>
      rw [hv.not_branch] at hp
      cases hp
    | first p rest =>
      rw [keepsTo_control_iff] at hp
      cases hv.control .or hp.1
  skip p rest _ _ _ hf h hp hw := by
    rw [keepsTo_block_iff] at hp
    have hr := h ((keepsTo_block_iff v rest).mpr fun q hq => hp q (List.mem_cons_of_mem p hq)) hw
    rwa [calls, callsOfAll, calls_eq_zero_of_isFinal hv p (hp p List.mem_cons_self) hf, Nat.zero_add, ← calls]
  before p rest _ _ l _ h hp hw := by
    rw [keepsTo_block_iff] at hp
    have hl := h (hp p List.mem_cons_self) hw
    rw [World.Keeps] at hl ⊢
    simp only [Launch.within, Frame.calls_before, calls, callsOfAll]
    omega
  bind var init _ _ l h hp hw := by
    have hl := h (by simpa only [keepsTo] using hp) hw
    rwa [Launch.within, Frame.calls_bind, calls]
  decided kind branches _ σ _ _ _ _ hp _ := by
    obtain ⟨-, hb⟩ := (keepsTo_control_iff v kind branches).mp hp
    rw [World.Keeps, Launch.group, Work.calls_group, calls, ← callsOfAll_markFinal hv s hb]
    rfl
  group kind branches _ _ r _ _ _ _ h hp hw := by
    obtain ⟨-, hb⟩ := (keepsTo_control_iff v kind branches).mp hp
    have hr := h hb (fun p hp hf => calls_eq_zero_of_startsFinal hv (hb p hp) hf)
      fun f hf => hw.inv.2 f (List.mem_append_left _ hf)
    rw [World.Keeps] at hr ⊢
    rw [Launch.group, Work.calls_group, calls, Scheduler.flights, List.append_nil]
    exact hr
  nil _ _ _ _ _ _ _ _ := rfl
  done p rest _ _ _ _ _ r hf h hp hz hw := by
    have hr := h (fun q hq => hp q (List.mem_cons_of_mem p hq)) (fun q hq => hz q (List.mem_cons_of_mem p hq)) hw
    rw [World.Keeps] at hr ⊢
    simp only [Round.keep, callsOfAll, hz p List.mem_cons_self hf, calls]
    omega
  mark p rest _ _ _ _ _ r _ hm h hp hz hw := by
    have hr := h (fun q hq => hp q (List.mem_cons_of_mem p hq)) (fun q hq => hz q (List.mem_cons_of_mem p hq)) hw
    rw [World.Keeps] at hr ⊢
    simp only [Round.keep, callsOfAll, calls_of_isMark hm]
    omega
  start p rest _ _ _ _ _ l r _ _ hl h hp hz hw := by
    have hl := hl (hp p List.mem_cons_self) (hw _ List.mem_cons_self)
    have hr := h (fun q hq => hp q (List.mem_cons_of_mem p hq)) (fun q hq => hz q (List.mem_cons_of_mem p hq))
      fun f hf => hw f (List.mem_cons_of_mem _ hf)
    rw [World.Keeps] at hl hr ⊢
    simp only [Round.start, callsOfAll, calls, List.map_cons, List.sum_cons, Work.callsOfFlight]
    omega

namespace Scheduler

theorem calls_nextSlot {v : Vocabulary} (hv : v.Unconditional) {s : State} {continuation : Option Program}
    {next : Program} (hc : ∀ p, continuation = some p → p.keepsTo v = true)
    (h : nextSlot s continuation = .ok next) : next.calls = Program.callsOption continuation := by
  cases continuation with
  | none =>
    cases h
    rfl
  | some p =>
    obtain ⟨final, hf, h⟩ := Except.exists_of_bind_eq_ok h
    cases final with
    | true =>
      cases h
      exact (Program.calls_eq_zero_of_isFinal hv p (hc p rfl) hf).symm
    | false =>
      cases h
      rfl

theorem calls_foldBatch {v : Vocabulary} (hv : v.Unconditional) {s t : Scheduler Work} (hs : s.Tabled)
    (hk : s.KeepsTo v) (ht : s.foldBatch = .ok t) : (Work.group t).calls 0 = (Work.group s).calls 0 := by
  have step (u : Scheduler Work) (c : Completion) (u' : Scheduler Work) (hc : c ∈ s.batch)
      (hb : u.slots[c.slot]? = some .blocked) (h : u.complete c = .ok u') :
      Program.callsOfAll u'.slots = Program.callsOfAll u.slots + Frame.calls c.frames := by
    obtain ⟨o, next, -, hn, rfl⟩ := complete_eq_ok h
    rw [Program.callsOfAll_set hb, calls_nextSlot hv (Frame.keepsTo_residual (hk.batch c hc)) hn, Frame.calls]
  obtain ⟨-, he⟩ := sum_foldBatch (fun u => Program.callsOfAll u.slots) step (hk.not_race hv.no_race) hs ht
  obtain ⟨hf, hb⟩ := flights_foldBatch ht
  rw [Work.calls_group, Work.calls_group, hf, hb, he]
  rfl

theorem calls_eq_zero_of_isFinished {s : Scheduler Work} (hk : s.kind ≠ .either) (hs : s.Tabled)
    (hf : s.isFinished = true) : (Work.group s).calls 0 = 0 := by
  obtain ⟨hn, hb⟩ := hs.nothing_pending hk hf
  rw [isFinished, slotsFinished_of_ne_either hk] at hf
  rw [Work.calls_group, hn, hb, Program.callsOfAll_of_all_isDone hf]
  rfl

end Scheduler

namespace Work

theorem keeps_dispatchLive {v : Vocabulary} (hv : v.Unconditional) {s : Scheduler Work} (hs : s.KeepsTo v) {c : Setting}
    {σ : World} (h : (s.dispatchLive c σ).1.Whole) :
    σ.Keeps (s.dispatchLive c σ).2 ((group s).calls 0) ((s.dispatchLive c σ).1.calls 0) := by
  have hr := (Program.keeps_cases hv c s.state).round s.slots (s.scope :: s.outer) (fun _ => false) 0 s.nextSeq σ
    hs.slots nofun fun f hm => h.inv.2 f (List.mem_append_left _ (List.mem_append_right _ hm))
  rw [World.Keeps] at hr ⊢
  rw [Scheduler.dispatchLive, calls_group, calls_group]
  simp only [Scheduler.flights, List.map_append, List.sum_append]
  omega

/-- One step of a work without conditions: unless something fails, no call is skipped. -/
theorem Moves.keeps {c : Setting} {v : Vocabulary} {w w' : Work} {σ τ : World} (h : Moves c w σ w' τ)
    (hv : v.Unconditional) (hk : w.KeepsTo c.domain v) (ht : w.Tabled) (hw : w'.Whole) :
    σ.Keeps τ (w.calls 0) (w'.calls 0) := by
  induction h with
  | @act e σ τ w h =>
    obtain ⟨allowance, he⟩ | ⟨timer, postponed, rfl, hτ⟩ := Execution.advance_ends_or_stays h
    · have hc := Execution.keeps_complete (e := e) (σ := { σ with allowance })
      rw [← he] at hc
      exact hc hw
    · rw [World.Keeps, hτ.dispatched]
      rfl
  | @finish s σ _ hf =>
    rw [Scheduler.calls_eq_zero_of_isFinished (hk.inv.1.not_race hv.no_race) ht.inv.1 hf, World.Keeps,
      World.dispatched_abandon]
    rfl
  | starve _ _ _ => exact absurd hw (not_whole_error _)
  | @rest s σ short _ _ _ =>
    have hst := stirs_look s (.resting (s.attention.again || short))
    rw [hst.calls_eq]
    rfl
  | fail _ _ _ => exact absurd hw (not_whole_error _)
  | @decide s t σ short _ _ hf hd =>
    rw [← Scheduler.calls_foldBatch hv ht.inv.1 hk.inv.1 hf, Scheduler.calls_eq_zero_of_isFinished
      ((hk.inv.1.foldBatch hf).not_race hv.no_race) (ht.inv.1.foldBatch hf) hd, World.Keeps, World.dispatched_abandon]
    rfl
  | @go s t σ short _ _ hf hd =>
    have hb := keeps_dispatchLive hv (hk.inv.1.foldBatch hf) hw
    rwa [Scheduler.calls_foldBatch hv ht.inv.1 hk.inv.1 hf] at hb
  | @follow s f rest σ τ w hs _ ih =>
    have hσ := ih (hk.inv.2 f hs.mem_flights) (ht.inv.2 f hs.mem_flights) (hw.inv.2 _ List.mem_cons_self)
    rw [World.Keeps] at hσ ⊢
    rw [calls_group, calls_group]
    simp only [Scheduler.follow, Scheduler.flights, hs.queue, List.cons_append, List.map_cons, List.sum_cons,
      callsOfFlight]
    omega
  | @receive s f rest σ hs _ =>
    obtain ⟨outcome, ho, he⟩ | hst := receive_cases hs.queue
    · rw [he, World.Keeps, calls_group, calls_group]
      simp only [Scheduler.flights, hs.queue, List.cons_append, List.map_cons, List.map_append, List.map_nil,
        List.sum_cons, List.sum_append, List.sum_nil, callsOfFlight, ho, calls]
      omega
    · rw [hst.calls_eq]
      rfl

end Work

namespace Machine

/-- As long as nothing has failed, the actions dispatched, the calls that remain and those around the work are so many
in total. -/
def Counted (around total : Nat) (m : Machine) : Prop :=
  m.main.Whole → m.world.dispatched.length + m.main.calls 0 + around = total

theorem Counted.stirs {around total : Nat} {m : Machine} (h : m.Counted around total) {w : Work}
    (hw : Work.Stirs m.main w) {σ : World} (hl : σ.log = m.world.log) : Counted around total ⟨w, σ⟩ := by
  intro hh
  have hc := h (hw.whole_iff.mp hh)
  rwa [hw.calls_eq, World.dispatched, hl]

theorem Steps.counted {c : Setting} {v : Vocabulary} {since : Multiset BoundAction} {around total : Nat}
    {m m' : Machine} (h : Steps c m m') (hv : v.Unconditional) (hm : m.InOrder c v since)
    (ht : m.Counted around total) : m'.Counted around total := by
  cases h with
  | move h =>
    intro hw
    have hc := ht (h.balances hv.no_race hm.vocabulary.main hm.tabled hw).1
    have hk := h.keeps hv hm.vocabulary.main hm.tabled hw
    rw [World.Keeps] at hk
    simp only
    omega
  | takeUp _ _ => exact ht.stirs (Work.stirs_takeUp _) rfl
  | wake _ _ _ => exact ht.stirs (Work.stirs_wake _) rfl
  | detached _ he _ =>
    intro hw
    rw [(hm.balanced hw).1] at he
    cases (List.append_eq_nil_iff.mp he.symm).2
  | ring _ _ => exact ht.stirs (Work.stirs_ring _ _) rfl

end Machine

namespace Program

theorem length_dispatched_transition {c : Setting} {v : Vocabulary} {p : Program} {s : State} {σ : World}
    {t : Successor} (hv : v.Unconditional) (hp : p.keepsTo v = true) (hσ : σ.KeepsTo c.domain v)
    (hd : σ.detached = []) (h : (p.transition c s σ).1 = .ok t) :
    (p.transition c s σ).2.dispatched.length + callsOption t.continuation = σ.dispatched.length + p.calls := by
  obtain ⟨o, hs, rfl⟩ := transition_eq_ok h
  have hc : (p.started c s σ).Counted (Frame.calls (p.dispatch c s [] σ).frames) (σ.dispatched.length + p.calls) := by
    intro hw
    have hk := (keeps_cases hv c s).dispatch p [] σ hp hw
    rwa [World.Keeps, ← Nat.add_assoc] at hk
  have hm := Machine.settle_induction
    (P := fun m => m.InOrder c v ↑σ.dispatched ∧
      m.Counted (Frame.calls (p.dispatch c s [] σ).frames) (σ.dispatched.length + p.calls))
    (fun m m' hm hs => ⟨hs.inOrder hv.no_race hm.1, hs.counted hv hm.1 hm.2⟩) _ ⟨inOrder_started hp hσ hd s, hc⟩
  have ht := hm.2 (by rw [hs]; exact .settled o)
  rwa [hs, Work.calls, Nat.add_zero, Frame.calls, ← Frame.continuation_resume _ o, ← world_transition] at ht

theorem length_dispatched_drive {c : Setting} {v : Vocabulary} {p : Program} {s s' : State} {σ : World}
    (hv : v.Unconditional) (hp : p.keepsTo v = true) (hσ : σ.KeepsTo c.domain v) (hd : σ.detached = [])
    (h : (p.drive c s σ).result = .ok s') :
    (p.drive c s σ).world.dispatched.length = σ.dispatched.length + p.calls := by
  fun_induction drive c p s σ with
  | case1 => cases h
  | case2 p s σ hf => rw [calls_eq_zero_of_isFinal hv p hp hf, Nat.add_zero]
  | case3 => cases h
  | case4 p s σ _ t τ ht hc =>
    have hl := length_dispatched_transition hv hp hσ hd (congrArg Prod.fst ht)
    rw [ht, hc] at hl
    exact hl
  | case5 p s σ _ t τ ht q hc ih =>
    have hr : (p.transition c s σ).1 = .ok t := congrArg Prod.fst ht
    have hl := length_dispatched_transition hv hp hσ hd hr
    obtain ⟨hk, hd, hq, -⟩ := effects_transition hv.no_race hp hσ hd hr
    rw [ht] at hk hd hl
    rw [ih (hq q hc) hk hd h, ← hl, hc]
    rfl

end Program

end Agenda
