import Mathlib
import Agenda.Proofs.Foresight
import Agenda.Proofs.Progress

/-!
# One transition, foreseen and taken

Without planning and without branches side by side, a transition starts one action at most. Offline the same statement
is found, with the same things around it; where there is a choice, its first branch comes first. What the action reports
is not known offline, so a binding that is made in the transition stores null there. Otherwise both lead to the same
place.
-/

namespace Agenda

set_option autoImplicit false

theorem Fields.keys_insert_congr {α : Type} {fields others : Fields α} (h : fields.keys = others.keys) (key : String)
    (a b : α) : (fields.insert key a).keys = (others.insert key b).keys := by
  induction fields generalizing others with
  | nil =>
    obtain rfl : others = [] := List.map_eq_nil_iff.mp h.symm
    rfl
  | cons entry rest ih =>
    obtain ⟨name, x⟩ := entry
    obtain ⟨⟨_, y⟩, others, rfl, rfl, hr⟩ := List.map_eq_cons_iff.mp h.symm
    simp only [insert]
    split
    · exact congrArg (List.cons _) hr.symm
    · exact congrArg (List.cons _) (ih hr.symm)

def Update.variable? : Update → Option String
  | .effect _ => none
  | .bind var _ => some var

namespace Successor

def boundVars (t : Successor) : List String := t.updates.filterMap Update.variable?

/-- The first successor is what can be foreseen of the second one: the same remains, and the states differ in the values
of the variables that are bound in the transition, which are null in the first one. -/
structure Foretells (t u : Successor) : Prop where
  continuation : t.continuation = u.continuation
  facts : t.state.facts = u.state.facts
  names : t.state.vars.keys = u.state.vars.keys
  bound : ∀ var ∈ u.boundVars, t.state.var? var = some .null
  others : ∀ var, var ∉ u.boundVars → t.state.var? var = u.state.var? var

theorem result_bound (t : Successor) (h : t.result = none) (var : String) : (t.bound var).result = none := by
  unfold bound
  split
  · exact h
  · rfl

theorem Foretells.bindVar {t u : Successor} (h : t.Foretells u) (hr : t.result = none) (var : String) :
    (t.bound var).Foretells (u.bound var) := by
  obtain ⟨continuation, state, result, planStep, updates⟩ := t
  obtain ⟨continuation', state', result', planStep', updates'⟩ := u
  obtain rfl : continuation = continuation' := h.continuation
  obtain rfl : result = none := hr
  cases continuation with
  | some init => exact ⟨rfl, h.facts, h.names, h.bound, h.others⟩
  | none =>
    have hb (value : Value) : (updates' ++ [Update.bind var value]).filterMap Update.variable? =
        updates'.filterMap Update.variable? ++ [var] := List.filterMap_append
    refine ⟨rfl, h.facts, Fields.keys_insert_congr h.names var _ _, ?_, ?_⟩
    · intro name hn
      rw [boundVars, Successor.bound, hb, List.mem_append, List.mem_singleton] at hn
      rcases eq_or_ne var name with rfl | hne
      · exact Fields.get?_insert_self _ _ _
      · have hm := hn.resolve_right hne.symm
        exact (Fields.get?_insert_of_ne _ _ hne).trans (h.bound name hm)
    · intro name hn
      rw [boundVars, Successor.bound, hb, List.mem_append, List.mem_singleton, not_or] at hn
      have hne : var ≠ name := fun he => hn.2 he.symm
      calc (state.bindVar var .null).var? name = state.var? name := Fields.get?_insert_of_ne _ _ hne
        _ = state'.var? name := h.others name hn.1
        _ = (state'.bindVar var (result'.getD .null)).var? name := (Fields.get?_insert_of_ne _ _ hne).symm

end Successor

namespace Frame

/-- The frames hand on no result that there is not. -/
theorem result_resume (frames : List Frame) (s : State) : (resume frames { state := s }).result = none := by
  induction frames using List.reverseRecOn with
  | nil => rfl
  | append_singleton frames f ih =>
    rw [resume_concat]
    cases f with
    | before rest => exact ih
    | bind var => exact Successor.result_bound _ ih var

theorem foretells_resume (frames : List Frame) {o : Outcome} (ho : o.updates.filterMap Update.variable? = []) :
    (resume frames { state := o.state }).Foretells (resume frames o) := by
  induction frames using List.reverseRecOn with
  | nil =>
    refine ⟨rfl, rfl, rfl, ?_, fun _ _ => rfl⟩
    intro var hm
    rw [Successor.boundVars, resume, List.foldl_nil, ho] at hm
    cases hm
  | append_singleton frames f ih =>
    rw [resume_concat, resume_concat]
    cases f with
    | before rest =>
      exact ⟨congrArg (Successor.resequence · rest) ih.continuation, ih.facts, ih.names, ih.bound, ih.others⟩
    | bind var => exact ih.bindVar (result_resume frames o.state) var

theorem apply_planStep (t : Successor) (f : Frame) (acts : List BoundAction) :
    f.apply { t with planStep := acts } = { f.apply t with planStep := acts } := by
  cases f with
  | before rest => rfl
  | bind var =>
    obtain ⟨continuation, state, result, planStep, updates⟩ := t
    cases continuation <;> rfl

end Frame

/-! ### A launch beside the successors -/

/-- A launch inside of no construct, beside the offline successors of the way that it takes: it fails at once, or passes
at once, or dispatches the action of the only successor. -/
inductive Launch.Beside (s : State) (σ : World) : Launch → Except Failure (List Successor) → Prop
  | refused {frames : List Frame} {e : Failure} : e.prunes = false →
      Beside s σ ⟨frames, .settled (.error e), σ⟩ (.error e)
  | pruned {frames : List Frame} {e : Failure} : e.prunes = true →
      Beside s σ ⟨frames, .settled (.error e), σ⟩ (.ok [])
  | passed {frames : List Frame} :
      Beside s σ ⟨frames, .settled (.ok { state := s }), σ⟩ (.ok [Frame.resume frames { state := s }])
  | started {frames : List Frame} {b : BoundAction} : b.action.possible s = true →
      Beside s σ ⟨frames, .acting { bound := b, after := b.action.effect s, trace := [], updates := [], scopes := [] },
          σ.record (.dispatched b [] σ.clock)⟩
        (.ok [{ Frame.resume frames { state := b.action.effect s } with planStep := [b] }])

theorem Launch.Beside.within {s : State} {σ : World} {l : Launch} {r : Except Failure (List Successor)}
    (h : l.Beside s σ r) (f : Frame) : (l.within f).Beside s σ (r.map (List.map f.apply)) := by
  cases h with
  | refused he => exact .refused he
  | pruned he => exact .pruned he
  | @passed frames =>
    have hp : Beside s σ ⟨frames ++ [f], _, σ⟩ _ := .passed
    rwa [Frame.resume_concat] at hp
  | @started frames b hb =>
    have hp : Beside s σ ⟨frames ++ [f], _, _⟩ _ := .started hb
    rwa [Frame.resume_concat, ← Frame.apply_planStep] at hp

/-- The first successors come before all others, and what fails for them fails for all. -/
def Heads (r all : Except Failure (List Successor)) : Prop :=
  match all with
  | .error e => ∀ e', r = .error e' → e' = e
  | .ok ts => ∃ front, r = .ok front ∧ front <+: ts

namespace Heads

variable {r all : Except Failure (List Successor)}

theorem refl (r : Except Failure (List Successor)) : Heads r r := by
  cases r with
  | error e =>
    rintro e' ⟨⟩
    rfl
  | ok ts => exact ⟨ts, rfl, List.prefix_rfl⟩

theorem map (h : Heads r all) (f : Successor → Successor) : Heads (r.map (List.map f)) (all.map (List.map f)) := by
  cases all with
  | error e =>
    intro e' he
    cases r with
    | error x =>
      cases he
      exact h e' rfl
    | ok front => cases he
  | ok ts =>
    obtain ⟨front, rfl, hp⟩ := h
    exact ⟨front.map f, rfl, hp.map f⟩

theorem choice {d : Domain} {s : State} {p : Program} (h : Heads r (p.successors d s)) (rest : List Program) :
    Heads r ((Program.control .or (p :: rest)).successors d s) := by
  rw [Program.successors, Program.choiceSuccessors]
  cases hp : p.successors d s with
  | error e =>
    rw [hp] at h
    exact h
  | ok ts =>
    rw [hp] at h
    obtain ⟨front, rfl, hf⟩ := h
    cases hr : Program.choiceSuccessors d s rest with
    | error e => rintro e' ⟨⟩
    | ok us => exact ⟨front, rfl, hf.trans (List.prefix_append ts us)⟩

end Heads

/-- The launch takes the way of the first successors of the program, and there are no others if there is no choice. -/
def Launch.Commits (d : Domain) (s : State) (σ : World) (p : Program) (l : Launch) : Prop :=
  ∃ r, l.Beside s σ r ∧ Heads r (p.successors d s) ∧ (p.keepsTo (.without [.or]) = true → p.successors d s = r)

namespace Program

variable {c : Setting} {s : State} {σ : World} {p q : Program}

theorem commits_of_beside {l : Launch} (h : l.Beside s σ (p.successors c.domain s)) : l.Commits c.domain s σ p :=
  ⟨_, h, .refl _, fun _ => rfl⟩

theorem commits_of_eq {l : Launch} (h : l.Commits c.domain s σ q)
    (he : p.successors c.domain s = q.successors c.domain s)
    (hk : p.keepsTo (.without [.or]) = true → q.keepsTo (.without [.or]) = true) : l.Commits c.domain s σ p := by
  obtain ⟨r, hb, hh, hn⟩ := h
  exact ⟨r, hb, he ▸ hh, fun hp => he.trans (hn (hk hp))⟩

theorem commits_within {l : Launch} (h : l.Commits c.domain s σ q) (f : Frame)
    (he : p.successors c.domain s = (q.successors c.domain s).map (List.map f.apply))
    (hk : p.keepsTo (.without [.or]) = true → q.keepsTo (.without [.or]) = true) :
    (l.within f).Commits c.domain s σ p := by
  obtain ⟨r, hb, hh, hn⟩ := h
  refine ⟨_, hb.within f, he ▸ hh.map f.apply, ?_⟩
  intro hp
  rw [he, hn (hk hp)]

theorem successors_bind (d : Domain) (s : State) (var : String) (init : Program) :
    (bind var init).successors d s = (init.successors d s).map (List.map (.bound var)) := by
  rw [successors]
  cases init.successors d s with
  | error e => rfl
  | ok ts => rfl

theorem beside_refusal {e : Failure} (hs : p.successors c.domain s = .error e) (he : e.prunes = false) (σ : World) :
    (Launch.failed e σ).Commits c.domain s σ p := by
  apply commits_of_beside
  rw [hs]
  exact .refused he

theorem commits_call (c : Setting) (s : State) (name : String) (args : Fields Expr) (σ : World) :
    ((call name args).dispatch c s [] σ).Commits c.domain s σ (.call name args) := by
  rw [dispatch]
  cases hr : c.domain.resolve s name args with
  | error e =>
    refine beside_refusal (by rw [successors, hr]; rfl) ?_ σ
    obtain he | ⟨error, rfl⟩ := Domain.resolve_eq_error hr
    · exact Failure.prunes_of_eval he
    · rfl
  | ok b =>
    apply commits_of_beside
    have hs : (call name args).successors c.domain s =
        if b.action.possible s then .ok [{ continuation := none, state := b.action.effect s, planStep := [b] }]
        else .ok [] := by
      rw [successors, hr]
      rfl
    rw [hs]
    cases hp : b.action.possible s with
    | true =>
      have hw : Work.perform [] [] [] s b σ =
          (.acting { bound := b, after := b.action.effect s, trace := [], updates := [], scopes := [] },
            σ.record (.dispatched b [] σ.clock)) := by
        simp only [Work.perform, List.any_nil, hp, Bool.not_true, Bool.false_eq_true, if_false]
      simp only [hw]
      exact .started hp
    | false =>
      have hw : Work.perform [] [] [] s b σ = (.settled (.error (.noTransition (.impossible b.record))), σ) := by
        simp only [Work.perform, List.any_nil, hp, Bool.not_false, Bool.false_eq_true, if_false, if_true]
      simp only [hw]
      exact .pruned rfl

theorem commits_test (c : Setting) (s : State) (condition : Expr) (σ : World) :
    ((test condition).dispatch c s [] σ).Commits c.domain s σ (.test condition) := by
  rw [dispatch]
  cases hc : condition.decide s with
  | error e => exact beside_refusal (by rw [successors, hc]; rfl) (Failure.prunes_of_eval (Expr.decide_eq_error hc)) σ
  | ok taken =>
    apply commits_of_beside
    rw [successors, hc]
    cases taken with
    | true => exact .passed
    | false => exact .pruned rfl

/-- The constructs of a transition that dispatches one action at most. -/
def lone : Vocabulary := .without [.plan, .conc, .either]

mutual
theorem commits_dispatch (c : Setting) (s : State) :
    ∀ (p : Program) (σ : World), p.keepsTo lone = true → (p.dispatch c s [] σ).Commits c.domain s σ p
  | .block statements, σ, hp => by
    rw [dispatch]
    exact commits_dispatchBlock c s statements σ hp
  | .branch condition consequent none, σ, hp => by
    rw [dispatch]
    cases hc : condition.decide s with
    | error e =>
      exact beside_refusal (by rw [successors, hc]; rfl) (Failure.prunes_of_eval (Expr.decide_eq_error hc)) σ
    | ok taken =>
      cases taken with
      | true =>
        exact commits_of_eq (commits_dispatch c s consequent σ (keepsTo_consequent hp))
          (successors_consequent hc consequent none) keepsTo_consequent
      | false =>
        apply commits_of_beside
        rw [successors_pass hc]
        exact .passed
  | .branch condition consequent (some alternate), σ, hp => by
    rw [dispatch]
    cases hc : condition.decide s with
    | error e =>
      exact beside_refusal (by rw [successors, hc]; rfl) (Failure.prunes_of_eval (Expr.decide_eq_error hc)) σ
    | ok taken =>
      cases taken with
      | true =>
        exact commits_of_eq (commits_dispatch c s consequent σ (keepsTo_consequent hp))
          (successors_consequent hc consequent (some alternate)) keepsTo_consequent
      | false =>
        exact commits_of_eq (commits_dispatch c s alternate σ (keepsTo_alternate hp))
          (successors_alternate hc consequent alternate) keepsTo_alternate
  | .test condition, σ, _ => commits_test c s condition σ
  | .call name args, σ, _ => commits_call c s name args σ
  | .bind var init, σ, hp => by
    rw [dispatch]
    rw [keepsTo] at hp
    exact commits_within (commits_dispatch c s init σ hp) (.bind var) (successors_bind c.domain s var init)
      (fun hk => by rwa [keepsTo] at hk)
  | .control .or [], σ, _ => by
    rw [dispatch]
    apply commits_of_beside
    rw [successors, choiceSuccessors]
    exact .pruned rfl
  | .control .or (first :: rest), σ, hp => by
    rw [dispatch]
    obtain ⟨r, hb, hh, -⟩ := commits_dispatch c s first σ
      (((keepsTo_control_iff _ _ _).mp hp).2 first List.mem_cons_self)
    exact ⟨r, hb, hh.choice rest, fun hk => absurd ((keepsTo_control_iff _ _ _).mp hk).1 (by decide)⟩
  | .control .plan _, _, hp => absurd ((keepsTo_control_iff _ _ _).mp hp).1 (by decide)
  | .control .conc _, _, hp => absurd ((keepsTo_control_iff _ _ _).mp hp).1 (by decide)
  | .control .either _, _, hp => absurd ((keepsTo_control_iff _ _ _).mp hp).1 (by decide)
  | .done, σ, _ => by
    rw [dispatch]
    exact commits_of_beside .passed
  | .blocked, σ, _ => by
    rw [dispatch]
    exact beside_refusal rfl rfl σ

theorem commits_dispatchBlock (c : Setting) (s : State) :
    ∀ (ps : List Program) (σ : World), (block ps).keepsTo lone = true →
      (dispatchBlock c s [] ps σ).Commits c.domain s σ (.block ps)
  | [], σ, _ => by
    rw [dispatchBlock]
    exact commits_of_beside .passed
  | p :: rest, σ, hp => by
    have hk (v : Vocabulary) := (keepsTo_block_iff v (p :: rest)).trans List.forall_mem_cons
    rw [dispatchBlock]
    cases hf : p.isFinal s with
    | error e =>
      refine beside_refusal ?_ (Failure.prunes_of_eval (isFinal_eq_error s p hf)) σ
      rw [successors, blockSuccessors, hf]
      rfl
    | ok final =>
      cases final with
      | true =>
        exact commits_of_eq
          (commits_dispatchBlock c s rest σ ((keepsTo_block_iff _ rest).mpr ((hk _).mp hp).2))
          (successors_block_skip hf rest) (fun h => (keepsTo_block_iff _ rest).mpr ((hk _).mp h).2)
      | false =>
        exact commits_within (commits_dispatch c s p σ ((hk _).mp hp).1) (.before rest)
          (successors_block_before hf rest) (fun h => ((hk _).mp h).1)
end

end Program

/-! ### The execution of one action -/

def World.Dispatches (b : BoundAction) (σ τ : World) : Prop :=
  σ.detached = [] → τ.detached = [] ∧ τ.dispatched = σ.dispatched ++ [b]

namespace Machine

/-- The machine executes one action that was dispatched in a world, or the action has ended. -/
inductive Attends (b : BoundAction) (t : State) (σ₀ : World) : Machine → Prop
  | acting {e : Execution} {σ : World} : e.bound = b → e.after = t → e.trace = [] → e.updates = [] →
      σ₀.Dispatches b σ → Attends b t σ₀ ⟨.acting e, σ⟩
  | ended {result : Option Value} {σ : World} : b.action.outcome = .ok result → σ₀.Dispatches b σ →
      Attends b t σ₀ ⟨.settled (.ok ⟨t, result, [.effect b]⟩), σ⟩
  | failed {message : String} {σ : World} : b.action.outcome = .error message → σ₀.Dispatches b σ →
      Attends b t σ₀ ⟨.settled (.error (.actionFailed b.record message)), σ⟩

variable {b : BoundAction} {t : State} {σ₀ σ : World}

theorem attends_complete {e : Execution} (hb : e.bound = b) (ha : e.after = t) (ht : e.trace = [])
    (hu : e.updates = []) (hσ : σ₀.Dispatches b σ) : Attends b t σ₀ ⟨(e.complete σ).1, (e.complete σ).2⟩ := by
  have hr : σ₀.Dispatches b (σ.record (.completed e.bound.record σ.clock)) := by
    intro hd
    rw [World.dispatched_record_completed]
    exact hσ hd
  unfold Execution.complete
  simp only [ht, hu, hb, ha] at hr ⊢
  split
  · rename_i message hm
    exact .failed hm hr
  · rename_i result ho
    exact .ended ho hr

theorem Steps.attends {c : Setting} {m m' : Machine} (h : Steps c m m') (hn : ∀ outcome, m.main ≠ .settled outcome)
    (hm : Attends b t σ₀ m) : Attends b t σ₀ m' := by
  cases hm with
  | @acting e σ hb ha ht hu hσ =>
    cases h with
    | move hw =>
      cases hw with
      | act hw =>
        obtain ⟨allowance, hn⟩ | ⟨timer, postponed, rfl, hτ⟩ := Execution.advance_ends_or_stays hw
        · have hr := attends_complete (σ := { σ with allowance }) hb ha ht hu hσ
          rwa [← hn] at hr
        · refine .acting hb ha ht hu fun hd => ?_
          rw [hτ.detached, hτ.dispatched]
          exact hσ hd
    | takeUp _ _ => exact .acting hb ha ht hu hσ
    | wake _ _ _ => exact .acting hb ha ht hu hσ
    | @detached front rest w w' τ _ hl _ =>
      refine .acting hb ha ht hu ?_
      intro hd
      -- with nothing around it, nothing else can move
      have hn : front ++ w :: rest = [] := hl.symm.trans (hσ hd).1
      exact absurd hn (List.append_ne_nil_of_right_ne_nil _ (List.cons_ne_nil _ _))
    | @ring time _ _ =>
      have hr : σ₀.Dispatches b { σ.renew c with clock := time, detached := σ.detached.map (Work.ring time) } := by
        intro hd
        obtain ⟨hn, hs⟩ := hσ hd
        exact ⟨by rw [hn, List.map_nil], hs⟩
      rw [Machine.ring, Work.ring]
      split
      · split
        · exact .acting hb ha ht hu hr
        · exact .acting hb ha ht hu hr
      · exact .acting hb ha ht hu hr
  | ended _ _ => exact absurd rfl (hn _)
  | failed _ _ => exact absurd rfl (hn _)

end Machine

namespace Program

variable {c : Setting} {s : State} {σ : World} {p : Program}

theorem transition_of_settled {frames : List Frame} {outcome : Except Failure Outcome} {τ : World}
    (h : p.dispatch c s [] σ = ⟨frames, .settled outcome, τ⟩) :
    p.transition c s σ = (outcome.map (Frame.resume frames), τ) := by
  rw [transition, h, Machine.settle_of_settled rfl]
  rfl

/-- A transition that dispatches an action ends as the action does. -/
theorem transition_of_started {frames : List Frame} {b : BoundAction}
    (h : p.dispatch c s [] σ =
      ⟨frames, .acting { bound := b, after := b.action.effect s, trace := [], updates := [], scopes := [] },
        σ.record (.dispatched b [] σ.clock)⟩) :
    ∃ τ, σ.Dispatches b τ ∧
      ((∃ result, b.action.outcome = .ok result ∧
          p.transition c s σ = (.ok (Frame.resume frames ⟨b.action.effect s, result, [.effect b]⟩), τ)) ∨
        ∃ message, b.action.outcome = .error message ∧
          p.transition c s σ = (.error (.actionFailed b.record message), τ)) := by
  have hl := (watchful_cases c s).dispatch p [] σ
  rw [h] at hl
  have hd : σ.Dispatches b (σ.record (.dispatched b [] σ.clock)) := fun hn =>
    ⟨hn, World.dispatched_record_dispatched σ b [] σ.clock⟩
  obtain ⟨⟨hm, -⟩, outcome, ho⟩ := Machine.settle_progress (c := c)
    (P := fun m => m.Attends b (b.action.effect s) σ ∧ m.Lively)
    (fun _ _ hn hm hs => ⟨hs.attends hn hm.1, hs.lively hm.2⟩) (fun _ hm hs => hm.2.progress hs)
    ⟨.acting { bound := b, after := b.action.effect s, trace := [], updates := [], scopes := [] },
      σ.record (.dispatched b [] σ.clock)⟩ ⟨.acting rfl rfl rfl rfl hd, hl.1, fun _ => hl.2⟩
  rw [transition, h]
  dsimp only
  generalize Machine.settle c _ = m at hm ho ⊢
  cases hm with
  | acting _ _ _ _ _ => cases ho
  | @ended result τ hr hτ => exact ⟨τ, hτ, .inl ⟨result, hr, rfl⟩⟩
  | @failed message τ hr hτ => exact ⟨τ, hτ, .inr ⟨message, hr, rfl⟩⟩

/-- How a transition ends, beside the work that it starts with and the offline successors of the way that it takes. -/
inductive Compares : Work → Except Failure (List Successor) → Except Failure Successor → Prop
  | refused {e : Failure} : e.prunes = false → Compares (.settled (.error e)) (.error e) (.error e)
  | pruned {e : Failure} : e.prunes = true → Compares (.settled (.error e)) (.ok []) (.error e)
  | foretold {w : Work} {t u : Successor} : (∀ e, w ≠ .settled (.error e)) → t.Foretells u →
      Compares w (.ok [t]) (.ok u)
  | failed {w : Work} {t : Successor} {e : Failure} : (∀ e, w ≠ .settled (.error e)) → e.prunes = false →
      Compares w (.ok [t]) (.error e)

namespace Compares

variable {w : Work} {r : Except Failure (List Successor)} {x : Except Failure Successor}

theorem exists_foretells {u : Successor} (h : Compares w r (.ok u)) : ∃ t, r = .ok [t] ∧ t.Foretells u := by
  cases h with
  | foretold _ ht => exact ⟨_, rfl, ht⟩

theorem length_le_one (h : Compares w r x) : ∀ ts, r = .ok ts → ts.length ≤ 1 := by
  rintro ts rfl
  cases h with
  | pruned _ => exact Nat.zero_le 1
  | foretold _ _ => exact Nat.le_refl 1
  | failed _ _ => exact Nat.le_refl 1

theorem eq_nil_iff (h : Compares w r x) : r = .ok [] ↔ ∃ e, x = .error e ∧ e.prunes = true := by
  constructor
  · rintro rfl
    cases h with
    | @pruned e he => exact ⟨e, rfl, he⟩
  · rintro ⟨e, rfl, he⟩
    cases h with
    | refused hn => exact absurd (hn.symm.trans he) Bool.false_ne_true
    | pruned _ => rfl
    | failed _ hn => exact absurd (hn.symm.trans he) Bool.false_ne_true

theorem eq_error_iff (h : Compares w r x) (e : Failure) :
    r = .error e ↔ w = .settled (.error e) ∧ x = .error e ∧ e.prunes = false := by
  constructor
  · rintro rfl
    cases h with
    | refused he => exact ⟨rfl, rfl, he⟩
  · rintro ⟨rfl, rfl, he⟩
    cases h with
    | refused _ => rfl
    | pruned hn => exact absurd (he.symm.trans hn) Bool.false_ne_true
    | failed hw _ => exact absurd rfl (hw e)

end Compares

theorem compares_transition {l : Launch} (hl : p.dispatch c s [] σ = l) {r : Except Failure (List Successor)}
    (h : l.Beside s σ r) : Compares l.work r (p.transition c s σ).1 := by
  cases h with
  | refused he =>
    rw [transition_of_settled hl]
    exact .refused he
  | pruned he =>
    rw [transition_of_settled hl]
    exact .pruned he
  | @passed frames =>
    rw [transition_of_settled hl]
    exact .foretold (by rintro e ⟨⟩) (Frame.foretells_resume frames (o := { state := s }) rfl)
  | @started frames b _ =>
    obtain ⟨τ, -, ⟨result, -, ht⟩ | ⟨message, -, ht⟩⟩ := transition_of_started hl
    · rw [ht]
      obtain ⟨hc, hf, hk, hv, ho⟩ := Frame.foretells_resume frames (o := ⟨b.action.effect s, result, [.effect b]⟩) rfl
      exact .foretold (by rintro e ⟨⟩) ⟨hc, hf, hk, hv, ho⟩
    · rw [ht]
      exact .failed (by rintro e ⟨⟩) rfl

/-- A transition of a program without planning and without branches side by side leads to the first of its offline
successors, if these can be told: the same remains, the facts are the same, and so are the variables but for the values
of those that are bound in the transition, which are null offline. If the program leaves no choice either, there is one
successor at most. There is none just when the transition fails because a condition does not hold or an action is
impossible, and they cannot be told just when dispatching fails otherwise, both with the same failure. -/
theorem transition_takes_first_successor (c : Setting) {p : Program}
    (hp : p.keepsTo (.without [.plan, .conc, .either]) = true) (s : State) (σ : World) :
    (∀ u ts, (p.transition c s σ).1 = .ok u → p.successors c.domain s = .ok ts →
      ∃ t rest, ts = t :: rest ∧ t.Foretells u) ∧
    (p.keepsTo (.without [.or]) = true →
      (∀ ts, p.successors c.domain s = .ok ts → ts.length ≤ 1) ∧
      (p.successors c.domain s = .ok [] ↔ ∃ e, (p.transition c s σ).1 = .error e ∧ e.prunes = true) ∧
      ∀ e, p.successors c.domain s = .error e ↔
        (p.dispatch c s [] σ).work = .settled (.error e) ∧ (p.transition c s σ).1 = .error e ∧ e.prunes = false) := by
  obtain ⟨r, hb, hh, hr⟩ := commits_dispatch c s p σ hp
  have hc := compares_transition rfl hb
  constructor
  · intro u ts hu hs
    rw [hu] at hc
    rw [hs] at hh
    obtain ⟨t, rfl, ht⟩ := hc.exists_foretells
    obtain ⟨_, ⟨⟩, rest, rfl⟩ := hh
    exact ⟨t, rest, rfl, ht⟩
  · intro hn
    rw [hr hn]
    exact ⟨hc.length_le_one, hc.eq_nil_iff, hc.eq_error_iff⟩

def bindBetween (init : Program) : Program :=
  .block [.test (.const (.bool true)), .bind "x" init, .test (.op .eq (.ref "x") (.const (.int 7)))]

/-- A choice, of which the first action reports what is bound. -/
def identityOrPut : Program :=
  .control .or [.call "Identity" [("value", .const (.int 7))], .call "Put" [("value", .const (.int 1))]]

/-- The result of a choice is bound where null is foreseen; an action is not possible, and another one is not there. -/
theorem transition_takes_first_successor_bindBetween :
    ((bindBetween identityOrPut).keepsTo (.without [.plan, .conc, .either]) = true ∧
      ∃ u t rest, ((bindBetween identityOrPut).transition Setting.standard {} {}).1 = .ok u ∧
        (bindBetween identityOrPut).successors Setting.standard.domain {} = .ok (t :: rest) ∧ t.Foretells u ∧
        u.boundVars = ["x"] ∧ u.state.var? "x" = some (.int 7)) ∧
    (∃ e, ((bindBetween (.call "Need" [("value", .const (.int 1))])).transition Setting.standard {} {}).1 = .error e ∧
      e.prunes = true) ∧
    ((bindBetween (.call "Nothing" [])).dispatch Setting.standard {} [] {}).work =
        .settled (.error (.action (.unknown "Nothing"))) ∧
      ((bindBetween (.call "Nothing" [])).transition Setting.standard {} {}).1 =
        .error (.action (.unknown "Nothing")) := by
  refine ⟨⟨by decide, ?_⟩, ?_, ?_⟩
  · have hu : ((bindBetween identityOrPut).transition Setting.standard {} {}).1.toOption.map
        (fun u => (u.boundVars, u.state.var? "x")) = some (["x"], some (.int 7)) := by cbv
    have hs : ((bindBetween identityOrPut).successors Setting.standard.domain {}).toOption.isSome = true := by cbv
    cases ht : ((bindBetween identityOrPut).transition Setting.standard {} {}).1 with
    | error e =>
      rw [ht] at hu
      cases hu
    | ok u =>
      cases hl : (bindBetween identityOrPut).successors Setting.standard.domain {} with
      | error e =>
        rw [hl] at hs
        cases hs
      | ok ts =>
        obtain ⟨t, rest, rfl, hf⟩ := (transition_takes_first_successor Setting.standard
          (p := bindBetween identityOrPut) (by decide) {} {}).1 u ts ht hl
        rw [ht] at hu
        obtain ⟨hb, hv⟩ := Prod.mk.inj (Option.some.inj hu)
        exact ⟨u, t, rest, rfl, rfl, hf, hb, hv⟩
  · obtain ⟨-, hn, -⟩ := (transition_takes_first_successor Setting.standard
      (p := bindBetween (.call "Need" [("value", .const (.int 1))])) (by decide) {} {}).2 (by decide)
    apply hn.mp
    cbv
  · obtain ⟨-, -, he⟩ := (transition_takes_first_successor Setting.standard
      (p := bindBetween (.call "Nothing" [])) (by decide) {} {}).2 (by decide)
    obtain ⟨hw, ht, -⟩ := (he (.action (.unknown "Nothing"))).mp (by cbv)
    exact ⟨hw, ht⟩

end Program

end Agenda
