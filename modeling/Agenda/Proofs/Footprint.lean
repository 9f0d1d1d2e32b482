import Mathlib
import Agenda.Proofs.PlanBindings
import Agenda.Proofs.Replay

/-!
# What a run leaves as it was

A construct rebuilds the state of its branches from their updates, a plan executes its actions anew, and what a race
discards is never taken back. Whatever happens in between, a run changes the state by updates alone, and each of them is
a binding that stands in the program or the effect of an action that the program calls. So all names keep their places,
and what is neither bound nor overwritten by one of these keeps its value.
-/

namespace Agenda

set_option autoImplicit false

/-! ### Where updates come from -/

/-- The calls that a program may make, and the updates that it may come to by them and by its bindings. -/
structure Licence (d : Domain) where
  vocabulary : Vocabulary
  admits : Update → Prop
  effect : ∀ b, d.Offers vocabulary b → admits (.effect b)

/-- The program makes only calls of the licence, and only bindings that it admits. -/
structure Program.Licensed {d : Domain} (l : Licence d) (p : Program) : Prop where
  calls : p.keepsTo l.vocabulary = true
  bindings : ∀ var, p.binds var = true → ∀ value, l.admits (.bind var value)

namespace Program

variable {d : Domain} {l : Licence d}

theorem licensed_block_iff (ps : List Program) : (block ps).Licensed l ↔ ∀ p ∈ ps, p.Licensed l := by
  constructor
  · intro h p hp
    exact ⟨(keepsTo_block_iff _ ps).mp h.calls p hp,
      fun var hv => h.bindings var ((binds_block_iff var ps).mpr ⟨p, hp, hv⟩)⟩
  · intro h
    refine ⟨(keepsTo_block_iff _ ps).mpr fun p hp => (h p hp).calls, ?_⟩
    intro var hv
    obtain ⟨p, hp, hb⟩ := (binds_block_iff var ps).mp hv
    exact (h p hp).bindings var hb

theorem licensed_bind_iff (var : String) (init : Program) :
    (bind var init).Licensed l ↔ (∀ value, l.admits (.bind var value)) ∧ init.Licensed l := by
  constructor
  · intro h
    have hc := h.calls
    rw [keepsTo] at hc
    refine ⟨h.bindings var ?_, hc, fun other ho => h.bindings other ?_⟩
    · rw [binds, beq_self_eq_true, Bool.true_or]
    · rw [binds, ho, Bool.or_true]
  · rintro ⟨hv, hi⟩
    refine ⟨?_, ?_⟩
    · rw [keepsTo]
      exact hi.calls
    · intro other ho
      rw [binds, Bool.or_eq_true, beq_iff_eq] at ho
      rcases ho with rfl | ho
      · exact hv
      · exact hi.bindings other ho

theorem Licensed.of_mem_control {kind : Control} {ps : List Program} (h : (control kind ps).Licensed l) :
    ∀ p ∈ ps, p.Licensed l := by
  intro p hp
  exact ⟨((keepsTo_control_iff _ kind ps).mp h.calls).2 p hp,
    fun var hv => h.bindings var (binds_control_of_mem hp kind hv)⟩

theorem Licensed.enters {s : State} {p q : Program} (he : p.Enters s q) (h : p.Licensed l) : q.Licensed l := by
  cases he with
  | consequent _ alternate _ =>
    refine ⟨keepsTo_consequent h.calls, fun var hv => h.bindings var ?_⟩
    cases alternate with
    | none => rwa [binds]
    | some _ => rw [binds, hv, Bool.true_or]
  | alternate _ _ _ =>
    refine ⟨keepsTo_alternate h.calls, fun var hv => h.bindings var ?_⟩
    rw [binds, hv, Bool.or_true]
  | first _ _ => exact h.of_mem_control q List.mem_cons_self

theorem licensed_of_isMark {p : Program} (h : p.isMark = true) : p.Licensed l := by
  cases p with
  | done | blocked => exact ⟨rfl, fun var hv => by cases hv⟩
  | _ => cases h

end Program

section

variable {d : Domain} (l : Licence d)

def Licence.Admits (outcome : Except Failure Outcome) : Prop :=
  ∀ o, outcome = .ok o → ∀ u ∈ o.updates, l.admits u

def Frame.Licensed : Frame → Prop
  | .before rest => ∀ p ∈ rest, p.Licensed l
  | .bind var => ∀ value, l.admits (.bind var value)

structure Scheduler.Licensed (s : Scheduler Work) : Prop where
  applied : ∀ u ∈ s.applied, l.admits u
  slots : ∀ p ∈ s.slots, p.Licensed l
  batch : ∀ c ∈ s.batch, l.Admits c.outcome ∧ ∀ f ∈ c.frames, f.Licensed l
  flights : ∀ fl ∈ s.flights, ∀ f ∈ fl.frames, f.Licensed l

inductive Work.Licensed : Work → Prop
  | settled {outcome : Except Failure Outcome} : l.Admits outcome → Licensed (.settled outcome)
  | acting {e : Execution} : (∀ u ∈ e.updates, l.admits u) → (∀ b ∈ e.bound :: e.trace, l.admits (.effect b)) →
      Licensed (.acting e)
  | group {s : Scheduler Work} : s.Licensed l → (∀ f ∈ s.flights, Licensed f.work) → Licensed (.group s)

end

namespace Frame

variable {d : Domain} {l : Licence d} {frames : List Frame}

theorem admits_resume (h : ∀ f ∈ frames, f.Licensed l) {o : Outcome} (ho : ∀ u ∈ o.updates, l.admits u) :
    ∀ u ∈ (resume frames o).updates, l.admits u := by
  induction frames using List.reverseRecOn with
  | nil => exact ho
  | append_singleton frames f ih =>
    rw [List.forall_mem_append, List.forall_mem_singleton] at h
    rw [resume_concat]
    cases f with
    | before rest => exact ih h.1
    | bind var =>
      simp only [apply, Successor.bound]
      split
      · exact ih h.1
      · exact List.forall_mem_append.mpr ⟨ih h.1, List.forall_mem_singleton.mpr (h.2 _)⟩

theorem licensed_residual (h : ∀ f ∈ frames, f.Licensed l) : ∀ p, residual frames = some p → p.Licensed l := by
  induction frames using List.reverseRecOn with
  | nil => rintro p ⟨⟩
  | append_singleton frames f ih =>
    rw [List.forall_mem_append, List.forall_mem_singleton] at h
    intro p hp
    rw [residual_concat] at hp
    cases f with
    | before rest =>
      cases hr : residual frames with
      | none =>
        rw [hr] at hp
        cases rest with
        | nil => cases hp
        | cons q rest =>
          cases hp
          exact (Program.licensed_block_iff _).mpr h.2
      | some q =>
        rw [hr] at hp
        cases hp
        exact (Program.licensed_block_iff _).mpr (List.forall_mem_cons.mpr ⟨ih h.1 q hr, h.2⟩)
    | bind var =>
      obtain ⟨q, hq, rfl⟩ := Option.map_eq_some_iff.mp hp
      exact (Program.licensed_bind_iff var q).mpr ⟨h.2, ih h.1 q hq⟩

end Frame

namespace Work

variable {d : Domain} {l : Licence d} {w w' : Work}

theorem licensed_error (e : Failure) : (Work.settled (.error e)).Licensed l := .settled (by rintro o ⟨⟩)

theorem Licensed.inv {s : Scheduler Work} (h : (Work.group s).Licensed l) :
    s.Licensed l ∧ ∀ f ∈ s.flights, f.work.Licensed l := by
  cases h with
  | group hs hf => exact ⟨hs, hf⟩

theorem licensed_perform {updates : List Update} {trace : List BoundAction} {bound : BoundAction}
    (hu : ∀ u ∈ updates, l.admits u) (hb : ∀ b ∈ bound :: trace, l.admits (.effect b)) (scopes : List Nat) (s : State)
    (σ : World) : (perform scopes updates trace s bound σ).1.Licensed l := by
  obtain ⟨e, he⟩ | ⟨-, he⟩ := perform_cases scopes updates trace s bound σ
  · rw [he]
    exact licensed_error e
  · rw [he]
    exact .acting hu hb

theorem Stirs.licensed (h : Stirs w w') (hw : w.Licensed l) : w'.Licensed l := by
  induction h with
  | settled outcome => exact hw
  | acting e timer postponed _ =>
    cases hw with
    | acting hu hb => exact .acting hu hb
  | group fs he hp hst ih =>
    obtain ⟨hs, hf⟩ := hw.inv
    refine .group ⟨hs.applied, hs.slots, hs.batch, ?_⟩ ?_
    · intro f hm
      obtain ⟨x, -, h₀, rfl⟩ := exists_of_mem_stirred he hp hm
      exact hs.flights x.1 h₀
    · intro f hm
      obtain ⟨x, hx, h₀, rfl⟩ := exists_of_mem_stirred he hp hm
      exact ih x hx (hf x.1 h₀)

end Work

theorem Execution.licensed_complete {d : Domain} {l : Licence d} {e : Execution} (h : (Work.acting e).Licensed l)
    (σ : World) : (e.complete σ).1.Licensed l := by
  cases h with
  | acting hu hb =>
    obtain ⟨hb, ht⟩ := List.forall_mem_cons.mp hb
    have hu : ∀ u ∈ e.updates ++ [.effect e.bound], l.admits u :=
      List.forall_mem_append.mpr ⟨hu, List.forall_mem_singleton.mpr hb⟩
    obtain ⟨message, he⟩ | ⟨result, -, he⟩ | ⟨bound, trace, hr, he⟩ := e.complete_cases σ
    · rw [he]
      exact Work.licensed_error _
    · rw [he]
      refine .settled ?_
      rintro o ⟨⟩
      exact hu
    · rw [he]
      exact Work.licensed_perform hu (hr ▸ ht) _ _ _

theorem Program.licensed_cases {c : Setting} (l : Licence c.domain) (s : State) :
    DispatchCases c s (fun p _ _ n => p.Licensed l → n.work.Licensed l ∧ ∀ f ∈ n.frames, f.Licensed l)
      (fun ps _ _ _ _ _ r => (∀ p ∈ ps, p.Licensed l) → (∀ p ∈ r.slots, p.Licensed l) ∧
        ∀ f ∈ r.flights, f.work.Licensed l ∧ ∀ g ∈ f.frames, g.Licensed l) where
  failed _ _ _ e _ _ := ⟨Work.licensed_error e, List.forall_mem_nil _⟩
  finished _ _ _ _ _ := by
    refine ⟨.settled ?_, List.forall_mem_nil _⟩
    rintro o ⟨⟩
    exact List.forall_mem_nil _
  call name args scopes σ bound hr hp := by
    have hc := hp.calls
    rw [keepsTo] at hc
    have hb : l.admits (.effect bound) := l.effect bound ⟨s, name, args, hc, hr⟩
    exact ⟨Work.licensed_perform (List.forall_mem_nil _) (List.forall_mem_singleton.mpr hb) scopes s σ,
      List.forall_mem_nil _⟩
  plan body rest scopes σ plan hr hp := by
    have hb : ∀ b ∈ plan.trace, l.admits (.effect b) := fun b hb =>
      l.effect b (offers_plan hr (hp.of_mem_control body List.mem_cons_self).calls b hb)
    refine ⟨?_, List.forall_mem_nil _⟩
    obtain ⟨-, he⟩ | ⟨bound, trace, ht, he⟩ := Work.performAll_cases scopes s σ plan.trace
    · simp only [he]
      refine .settled ?_
      rintro o ⟨⟩
      exact List.forall_mem_nil _
    · simp only [he]
      exact Work.licensed_perform (List.forall_mem_nil _) (ht ▸ hb) scopes s σ
  enter _ _ _ _ _ he h hp := h (hp.enters he)
  skip _ rest _ _ _ _ h hp := by
    rw [licensed_block_iff, List.forall_mem_cons] at hp
    exact h ((licensed_block_iff rest).mpr hp.2)
  before _ _ _ _ _ _ h hp := by
    rw [licensed_block_iff, List.forall_mem_cons] at hp
    obtain ⟨hw, hf⟩ := h hp.1
    exact ⟨hw, List.forall_mem_append.mpr ⟨hf, List.forall_mem_singleton.mpr hp.2⟩⟩
  bind var init _ _ _ h hp := by
    rw [licensed_bind_iff] at hp
    obtain ⟨hw, hf⟩ := h hp.2
    exact ⟨hw, List.forall_mem_append.mpr ⟨hf, List.forall_mem_singleton.mpr hp.1⟩⟩
  decided _ branches _ _ _ _ _ _ hp := by
    refine ⟨.group ⟨List.forall_mem_nil _, ?_, List.forall_mem_nil _, List.forall_mem_nil _⟩ (List.forall_mem_nil _),
      List.forall_mem_nil _⟩
    refine List.forall_mem_map.mpr fun q hq => ?_
    split
    · exact licensed_of_isMark rfl
    · exact hp.of_mem_control q hq
  group _ _ _ _ r _ _ _ _ h hp := by
    obtain ⟨hs, hf⟩ := h hp.of_mem_control
    have hm : ∀ f ∈ r.flights ++ [], f ∈ r.flights := fun f hf => by rwa [List.append_nil] at hf
    exact ⟨.group ⟨List.forall_mem_nil _, hs, List.forall_mem_nil _, fun f hx => (hf f (hm f hx)).2⟩
      fun f hx => (hf f (hm f hx)).1, List.forall_mem_nil _⟩
  nil _ _ _ _ _ _ := ⟨List.forall_mem_nil _, List.forall_mem_nil _⟩
  done _ _ _ _ _ _ _ _ _ h hp := by
    obtain ⟨hs, hf⟩ := h (List.forall_mem_cons.mp hp).2
    exact ⟨List.forall_mem_cons.mpr ⟨licensed_of_isMark rfl, hs⟩, hf⟩
  mark _ _ _ _ _ _ _ _ _ hm h hp := by
    obtain ⟨hs, hf⟩ := h (List.forall_mem_cons.mp hp).2
    exact ⟨List.forall_mem_cons.mpr ⟨licensed_of_isMark hm, hs⟩, hf⟩
  start _ _ _ _ _ _ _ _ _ _ _ hl h hp := by
    obtain ⟨hp, hr⟩ := List.forall_mem_cons.mp hp
    obtain ⟨hs, hf⟩ := h hr
    exact ⟨List.forall_mem_cons.mpr ⟨licensed_of_isMark rfl, hs⟩, List.forall_mem_cons.mpr ⟨hl hp, hf⟩⟩

theorem Scheduler.Licensed.outcome {d : Domain} {l : Licence d} {s : Scheduler Work} (h : s.Licensed l) :
    (Work.settled (.ok s.outcome)).Licensed l := by
  refine .settled ?_
  rintro o ⟨⟩
  exact h.applied

theorem Scheduler.Licensed.foldBatch {d : Domain} {l : Licence d} {s t : Scheduler Work} (hs : s.Licensed l)
    (h : s.foldBatch = .ok t) : t.Licensed l := by
  obtain ⟨hf, hb⟩ := flights_foldBatch h
  obtain ⟨ha, hp⟩ : (∀ u ∈ t.applied, l.admits u) ∧ ∀ p ∈ t.slots, p.Licensed l := by
    refine foldBatch_induction (P := fun u => (∀ x ∈ u.applied, l.admits x) ∧ ∀ p ∈ u.slots, p.Licensed l) ?_
      ⟨hs.applied, hs.slots⟩ h
    rintro u c v hc ⟨ha, hp⟩ - hv
    obtain ⟨o, next, ho, hn, rfl⟩ := complete_eq_ok hv
    obtain ⟨hu, hr⟩ := hs.batch c hc
    refine ⟨List.forall_mem_append.mpr ⟨ha, Frame.admits_resume hr (hu o ho)⟩, ?_⟩
    intro p hm
    rcases List.mem_or_eq_of_mem_set hm with hm | rfl
    · exact hp p hm
    · rcases nextSlot_cases hn with rfl | hn
      · exact Program.licensed_of_isMark rfl
      · exact Frame.licensed_residual hr p hn
  refine ⟨ha, hp, ?_, ?_⟩
  · rw [hb]
    exact List.forall_mem_nil _
  · rw [hf]
    exact hs.flights

namespace Work

variable {c : Setting} {l : Licence c.domain} {w w' : Work} {σ τ : World}

theorem Moves.licensed (h : Moves c w σ w' τ) (hw : w.Licensed l) : w'.Licensed l := by
  induction h with
  | @act e σ τ w h =>
    obtain ⟨allowance, he⟩ | ⟨timer, postponed, rfl, -⟩ := Execution.advance_ends_or_stays h
    · have hc := Execution.licensed_complete hw { σ with allowance }
      rwa [← he] at hc
    · cases hw with
      | acting hb ht => exact .acting hb ht
  | finish _ _ => exact hw.inv.1.outcome
  | starve _ _ _ => exact licensed_error _
  | rest _ _ _ => exact (stirs_look _ _).licensed hw
  | fail _ _ _ => exact licensed_error _
  | decide _ _ ht _ => exact (hw.inv.1.foldBatch ht).outcome
  | @go s t σ _ _ _ ht _ =>
    obtain ⟨hs, hf⟩ := hw.inv
    obtain ⟨he, -⟩ := Scheduler.flights_foldBatch ht
    have hl := hs.foldBatch ht
    obtain ⟨hm, hn⟩ := (Program.licensed_cases l t.state).round t.slots (t.scope :: t.outer) (fun _ => false) 0
      t.nextSeq σ hl.slots
    refine .group ⟨hl.applied, hm, hl.batch, ?_⟩ ?_
    · intro f hx
      rcases Scheduler.mem_flights_dispatchLive hx with hx | hx
      · exact hl.flights f hx
      · exact (hn f hx).2
    · intro f hx
      rcases Scheduler.mem_flights_dispatchLive hx with hx | hx
      · exact hf f (he ▸ hx)
      · exact (hn f hx).1
  | @follow s f rest σ τ w hs _ ih =>
    obtain ⟨hl, hf⟩ := hw.inv
    have h₀ := hs.mem_flights
    refine .group ⟨hl.applied, hl.slots, hl.batch, ?_⟩ ?_
    · intro g hg
      rcases hs.mem_flights_follow hg with rfl | hg
      · exact hl.flights f h₀
      · exact hl.flights g hg
    · intro g hg
      rcases hs.mem_flights_follow hg with rfl | hg
      · exact ih (hf f h₀)
      · exact hf g hg
  | @receive s f rest σ hs _ =>
    obtain ⟨outcome, ho, he⟩ | hst := receive_cases hs.queue
    · obtain ⟨hl, hf⟩ := hw.inv
      have ha : l.Admits outcome := by
        have hx := hf f hs.mem_flights
        rw [ho] at hx
        cases hx with
        | settled hx => exact hx
      rw [he]
      refine .group ⟨hl.applied, hl.slots, ?_, ?_⟩ ?_
      · exact List.forall_mem_append.mpr ⟨hl.batch, List.forall_mem_singleton.mpr ⟨ha, hl.flights f hs.mem_flights⟩⟩
      · exact fun g hg => hl.flights g (hs.mem_flights_of_mem_rest hg)
      · exact fun g hg => hf g (hs.mem_flights_of_mem_rest hg)
    · exact hst.licensed hw

theorem Course.licensed (h : Course c w w') (hw : w.Licensed l) : w'.Licensed l := by
  induction h with
  | refl _ => exact hw
  | move hm _ ih => exact ih (hm.licensed hw)
  | ring time _ ih => exact ih ((stirs_ring _ time).licensed hw)
  | takeUp _ ih => exact ih ((stirs_takeUp _).licensed hw)
  | wake _ ih => exact ih ((stirs_wake _).licensed hw)

end Work

namespace Program

variable {c : Setting} {l : Licence c.domain} {p : Program} {s s' : State}

theorem Resolves.licensed {scopes : List Nat} {σ : World} {t : Successor} (h : p.Resolves c s scopes σ t)
    (hp : p.Licensed l) : (∀ u ∈ t.updates, l.admits u) ∧ ∀ q, t.continuation = some q → q.Licensed l := by
  obtain ⟨o, hc, rfl⟩ := h
  obtain ⟨hw, hf⟩ := (licensed_cases l s).dispatch p scopes σ hp
  rw [Frame.continuation_resume]
  refine ⟨?_, Frame.licensed_residual hf⟩
  cases hc.licensed hw with
  | settled ho => exact Frame.admits_resume hf (ho o rfl)

theorem Licensed.drive {σ : World} (hp : p.Licensed l) (h : (p.drive c s σ).result = .ok s') :
    ∃ updates, Update.applyAll s updates = s' ∧ ∀ u ∈ updates, l.admits u := by
  fun_induction Program.drive c p s σ with
  | case1 => cases h
  | case2 p s σ =>
    cases h
    exact ⟨[], rfl, List.forall_mem_nil _⟩
  | case3 => cases h
  | case4 p s σ _ t τ ht hc =>
    cases h
    have hr := resolves_transition (congrArg Prod.fst ht)
    exact ⟨t.updates, hr.replays, (hr.licensed hp).1⟩
  | case5 p s σ _ t τ ht q hc ih =>
    have hr := resolves_transition (congrArg Prod.fst ht)
    obtain ⟨hu, hq⟩ := hr.licensed hp
    obtain ⟨updates, he, hus⟩ := ih (hq q hc) h
    refine ⟨t.updates ++ updates, ?_, List.forall_mem_append.mpr ⟨hu, hus⟩⟩
    rw [Update.applyAll_append, hr.replays, he]

end Program

/-! ### Names and values -/

namespace Fields

variable {α : Type}

theorem keys_insert (fields : Fields α) (key : String) (a : α) : fields.keys <+: (fields.insert key a).keys := by
  induction fields with
  | nil => exact List.nil_prefix
  | cons entry rest ih =>
    unfold insert
    split
    · exact List.prefix_rfl
    · exact List.prefix_cons_inj _ |>.mpr ih

end Fields

/-- Only these facts and variables may differ. All names are still there, in front of those that are new. -/
structure State.Changes (facts vars : String → Prop) (s t : State) : Prop where
  factKeys : s.facts.keys <+: t.facts.keys
  varKeys : s.vars.keys <+: t.vars.keys
  fact : ∀ key, ¬ facts key → t.fact? key = s.fact? key
  var : ∀ name, ¬ vars name → t.var? name = s.var? name

namespace State

variable {facts vars : String → Prop} {s t u : State}

theorem changes_refl (s : State) : s.Changes facts vars s :=
  ⟨List.prefix_rfl, List.prefix_rfl, fun _ _ => rfl, fun _ _ => rfl⟩

theorem Changes.trans (h : s.Changes facts vars t) (h' : t.Changes facts vars u) : s.Changes facts vars u :=
  ⟨h.factKeys.trans h'.factKeys, h.varKeys.trans h'.varKeys,
    fun key hk => (h'.fact key hk).trans (h.fact key hk), fun name hn => (h'.var name hn).trans (h.var name hn)⟩

theorem changes_withFact {key : String} (h : facts key) (s : State) (v : Value) :
    s.Changes facts vars (s.withFact key v) := by
  refine ⟨Fields.keys_insert s.facts key v, List.prefix_rfl, ?_, fun _ _ => rfl⟩
  intro other ho
  refine Fields.get?_insert_of_ne s.facts v ?_
  rintro rfl
  exact ho h

theorem changes_bindVar {name : String} (h : vars name) (s : State) (v : Value) :
    s.Changes facts vars (s.bindVar name v) := by
  refine ⟨List.prefix_rfl, Fields.keys_insert s.vars name v, fun _ _ => rfl, ?_⟩
  intro other ho
  refine Fields.get?_insert_of_ne s.vars v ?_
  rintro rfl
  exact ho h

theorem changes_applyAll {updates : List Update} (h : ∀ u ∈ updates, ∀ s : State, s.Changes facts vars (u.apply s))
    (s : State) : s.Changes facts vars (Update.applyAll s updates) := by
  induction updates generalizing s with
  | nil => exact s.changes_refl
  | cons u rest ih =>
    obtain ⟨hu, hr⟩ := List.forall_mem_cons.mp h
    exact (hu s).trans (ih hr (u.apply s))

end State

namespace Domain

variable {facts vars : String → Prop} {args : Fields Value} {a : Action}

theorem changes_sleep (h : sleep args = .ok a) (s : State) : s.Changes facts vars (a.effect s) := by
  unfold sleep at h
  obtain ⟨time, -, h⟩ := Except.exists_of_bind_eq_ok h
  split at h
  · cases h
    exact s.changes_refl
  · cases h

theorem changes_goTo {roads : RoadMap} {latency : Nat} (h : goTo roads latency args = .ok a) (hl : facts location)
    (s : State) : s.Changes facts vars (a.effect s) := by
  unfold goTo at h
  obtain ⟨destination, -, h⟩ := Except.exists_of_bind_eq_ok h
  split at h
  · cases h
    exact State.changes_withFact hl s _
  · cases h

theorem changes_of_resolve {latency : Nat} {roads : RoadMap} {s : State} {name : String} {args : Fields Expr}
    {b : BoundAction} (h : (standard latency roads).resolve s name args = .ok b) (t : State) :
    t.Changes (fun key => name ∈ onFacts.keys ∨ key = location) vars (b.action.effect t) := by
  obtain ⟨record, action⟩ := b
  obtain ⟨values, build, -, hg, ha, -⟩ := resolve_eq_ok h
  have hm := Fields.mem_of_get? hg
  simp only [standard, delivery, general, onFacts, List.mem_append, List.mem_cons, List.not_mem_nil, or_false,
    Prod.mk.injEq] at hm
  rcases hm with ((⟨rfl, rfl⟩ | ⟨rfl, rfl⟩ | ⟨rfl, rfl⟩ | ⟨rfl, rfl⟩ | ⟨rfl, rfl⟩) | ⟨rfl, rfl⟩) |
    ⟨rfl, rfl⟩ | ⟨rfl, rfl⟩ | ⟨rfl, rfl⟩
  case inl.inl.inr.inr.inl => exact changes_sleep ha t
  case inl.inr => exact changes_goTo ha (.inr rfl) t
  case inr.inl =>
    cases ha
    exact State.changes_withFact (.inl List.mem_cons_self) t _
  case inr.inr.inl =>
    cases ha
    exact State.changes_withFact (.inl (List.mem_cons_of_mem _ List.mem_cons_self)) t _
  all_goals
    cases ha
    exact t.changes_refl

end Domain

/-- The calls of actions for every program, and of the drive. -/
def Vocabulary.delivering : Vocabulary where
  call name _ := ["Action", "A", "Sleep", "Identity", "Fail", "GoTo"].contains name

theorem Vocabulary.not_mem_onFacts_of_delivering {name : String} {args : Fields Expr}
    (h : delivering.call name args = true) : name ∉ Domain.onFacts.keys := by
  simp only [delivering, List.contains_eq_mem, List.mem_cons, List.not_mem_nil, or_false, decide_eq_true_eq] at h
  rcases h with rfl | rfl | rfl | rfl | rfl | rfl <;> decide

def Licence.standard (latency : Nat) (roads : RoadMap) (v : Vocabulary) (vars : String → Prop) :
    Licence (Domain.standard latency roads) where
  vocabulary := v
  admits u := ∀ s : State,
    s.Changes (fun key => (∃ name args, v.call name args = true ∧ name ∈ Domain.onFacts.keys) ∨ key = Domain.location)
      vars (u.apply s)
  effect b := by
    rintro ⟨s, name, args, hv, hr⟩ t
    have hc : t.Changes (fun key => name ∈ Domain.onFacts.keys ∨ key = Domain.location) vars (b.action.effect t) :=
      Domain.changes_of_resolve hr t
    exact ⟨hc.factKeys, hc.varKeys, fun key hk => hc.fact key fun h => hk (h.imp_left fun hn => ⟨name, args, hv, hn⟩),
      hc.var⟩

namespace Program

mutual
theorem keepsTo_anything : ∀ p : Program, p.keepsTo {} = true
  | .block statements => by
    rw [keepsTo]
    exact keepToAll_anything statements
  | .branch _ consequent none => by
    rw [keepsTo, keepsTo_anything consequent]
    rfl
  | .branch _ consequent (some alternate) => by
    rw [keepsTo, keepsTo_anything consequent, keepsTo_anything alternate]
    rfl
  | .bind _ init => by
    rw [keepsTo]
    exact keepsTo_anything init
  | .control _ branches => by
    rw [keepsTo, keepToAll_anything branches]
    rfl
  | .test _ => rfl
  | .call _ _ => rfl
  | .done => rfl
  | .blocked => rfl

theorem keepToAll_anything : ∀ ps : List Program, keepToAll {} ps = true
  | [] => rfl
  | p :: rest => by
    rw [keepToAll, keepsTo_anything p, keepToAll_anything rest]
    rfl
end

variable {latency : Nat} {roads : RoadMap} {limit : Option Nat} {budget : Budget} {p : Program} {s s' : State}

theorem changes_run {v : Vocabulary} (hp : p.keepsTo v = true)
    (h : (p.run ⟨Domain.standard latency roads, limit, budget⟩ s).result = .ok s') :
    s.Changes (fun key => (∃ name args, v.call name args = true ∧ name ∈ Domain.onFacts.keys) ∨ key = Domain.location)
      (fun var => p.binds var = true) s' := by
  rw [run_eq_ok h] at h
  have hl : p.Licensed (Licence.standard latency roads v fun var => p.binds var = true) :=
    ⟨hp, fun var hv value t => t.changes_bindVar hv value⟩
  obtain ⟨updates, rfl, hu⟩ := hl.drive h
  exact State.changes_applyAll hu s

/-- A run that succeeds changes nothing but what its program speaks of. All facts and variables are still there, in
their order and in front of the new ones. A variable that is new or has another value is one that the program binds, and
where the program calls only the actions for every program and the drive, the location is the one fact that may differ.
-/
theorem run_changes_only (h : (p.run ⟨Domain.standard latency roads, limit, budget⟩ s).result = .ok s') :
    (∃ added, s'.facts.keys = s.facts.keys ++ added) ∧ (∃ added, s'.vars.keys = s.vars.keys ++ added) ∧
    (∀ var, s'.var? var ≠ s.var? var → p.binds var = true) ∧
    (p.keepsTo .delivering = true → ∀ key, key ≠ Domain.location → s'.fact? key = s.fact? key) := by
  have hr := changes_run (keepsTo_anything p) h
  obtain ⟨facts, hf⟩ := hr.factKeys
  obtain ⟨vars, hv⟩ := hr.varKeys
  refine ⟨⟨facts, hf.symm⟩, ⟨vars, hv.symm⟩, ?_, ?_⟩
  · intro var hn
    by_contra hb
    exact hn (hr.var var hb)
  · intro hp key hk
    refine (changes_run hp h).fact key ?_
    rintro (⟨name, args, hc, hn⟩ | rfl)
    · exact Vocabulary.not_mem_onFacts_of_delivering hc hn
    · exact hk rfl

/-- A drive that is planned, and its result bound beside another binding. -/
def driveAndBind : Program :=
  .control .conc
    [.bind "x" (.control .plan [.call "GoTo" [("location", .const (.text "l2"))]]),
      .bind "y" (.call "Identity" [("value", .const (.int 1))])]

theorem run_changes_only_driveAndBind :
    ∃ s', (driveAndBind.run Setting.standard
        ⟨[("z", .null), ("x", .bool true)], [("location", .text "l1"), ("order", .int 3)]⟩).result = .ok s' ∧
      s' = ⟨[("z", .null), ("x", .null), ("y", .int 1)], [("location", .text "l2"), ("order", .int 3)]⟩ ∧
      (∃ added, s'.facts.keys = ["location", "order"] ++ added) ∧ (∃ added, s'.vars.keys = ["z", "x"] ++ added) ∧
      (s'.var? "y" ≠ none → driveAndBind.binds "y" = true) ∧ s'.fact? "order" = some (.int 3) := by
  have hs : (driveAndBind.run Setting.standard
      ⟨[("z", .null), ("x", .bool true)], [("location", .text "l1"), ("order", .int 3)]⟩).result.toOption =
      some ⟨[("z", .null), ("x", .null), ("y", .int 1)], [("location", .text "l2"), ("order", .int 3)]⟩ := by
    rw [run_of_validate _ _ rfl, drive_eq]
    cbv
  cases hr : (driveAndBind.run Setting.standard
      ⟨[("z", .null), ("x", .bool true)], [("location", .text "l1"), ("order", .int 3)]⟩).result with
  | error f =>
    rw [hr] at hs
    cases hs
  | ok s' =>
    rw [hr] at hs
    obtain ⟨hf, hv, hb, hl⟩ := run_changes_only hr
    exact ⟨s', rfl, Option.some.inj hs, hf, hv, hb "y", hl rfl "order" (by decide)⟩

end Program

end Agenda
