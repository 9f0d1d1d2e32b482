import Mathlib
import Agenda.Proofs.FailureReports
import Agenda.Proofs.PlanBindings
import Agenda.Proofs.StepAgreement

/-!
# What a binding stores

The result of an action goes with the transition that executes it, and is bound if nothing of the initialiser remains
after that. If something remains, the result is dropped: the binding is made around what remains, and only a result of
the next transition can get there. So a binding stores what the last action reports when it is executed in the last
transition, and null when the last transition executes nothing, whatever was reported before.
-/

namespace Agenda

set_option autoImplicit false

namespace Program

/-- There is no binding in the program, and none of the constructs that plan or go on side by side. -/
structure Bare (p : Program) : Prop where
  keeps : p.keepsTo lone = true
  binds : ∀ var, p.binds var = false

variable {s : State} {p q : Program}

theorem bare_block_iff (ps : List Program) : (block ps).Bare ↔ ∀ p ∈ ps, p.Bare := by
  constructor
  · intro h p hp
    refine ⟨(keepsTo_block_iff lone ps).mp h.keeps p hp, ?_⟩
    intro var
    rw [Bool.eq_false_iff]
    intro hb
    exact Bool.eq_false_iff.mp (h.binds var) ((binds_block_iff var ps).mpr ⟨p, hp, hb⟩)
  · intro h
    refine ⟨(keepsTo_block_iff lone ps).mpr fun p hp => (h p hp).keeps, ?_⟩
    intro var
    rw [Bool.eq_false_iff]
    intro hb
    obtain ⟨p, hp, hb⟩ := (binds_block_iff var ps).mp hb
    exact Bool.eq_false_iff.mp ((h p hp).binds var) hb

theorem Enters.binds {var : String} (h : p.Enters s q) (hp : p.binds var = false) : q.binds var = false := by
  cases h with
  | consequent _ alternate _ =>
    cases alternate with
    | none => rwa [Program.binds] at hp
    | some r =>
      rw [Program.binds, Bool.or_eq_false_iff] at hp
      exact hp.1
  | alternate _ _ _ =>
    rw [Program.binds, Bool.or_eq_false_iff] at hp
    exact hp.2
  | first _ rest =>
    rw [Program.binds, anyBinds, Bool.or_eq_false_iff] at hp
    exact hp.1

theorem Enters.bare (h : p.Enters s q) (hp : p.Bare) : q.Bare :=
  ⟨h.keepsTo hp.keeps, fun var => h.binds (hp.binds var)⟩

theorem Enters.isFinal (h : p.Enters s q) (hq : q.isFinal s = .ok true) : p.isFinal s = .ok true := by
  cases h with
  | consequent _ alternate hc => rw [isFinal_consequent hc, hq]
  | alternate r _ hc => rw [isFinal_alternate hc, hq]
  | first _ rest =>
    rw [Program.isFinal, anyFinal, hq]
    rfl

theorem not_bare_bind (var : String) (init : Program) : ¬ (bind var init).Bare := by
  intro h
  have hb := h.binds var
  rw [Program.binds, beq_self_eq_true] at hb
  cases hb

theorem not_bare_control {kind : Control} (hk : kind ≠ .or) (branches : List Program) :
    ¬ (control kind branches).Bare := by
  intro h
  have hc := ((keepsTo_control_iff _ _ _).mp h.keeps).1
  cases kind with
  | or => exact hk rfl
  | plan => cases hc
  | conc => cases hc
  | either => cases hc

end Program

def Frame.Bare : Frame → Prop
  | .before rest => ∀ p ∈ rest, p.Bare
  | .bind _ => False

namespace Frame

variable {frames : List Frame}

theorem resume_of_bare (h : ∀ f ∈ frames, f.Bare) (o : Outcome) :
    resume frames o = ⟨residual frames, o.state, o.result, [], o.updates⟩ := by
  induction frames using List.reverseRecOn with
  | nil => rfl
  | append_singleton frames f ih =>
    have hf := h f (List.mem_append_right _ List.mem_cons_self)
    rw [resume_concat, residual_concat, ih fun g hg => h g (List.mem_append_left _ hg)]
    cases f with
    | before rest => rfl
    | bind var => exact hf.elim

theorem bare_residual (h : ∀ f ∈ frames, f.Bare) {q : Program} (hq : residual frames = some q) : q.Bare := by
  induction frames using List.reverseRecOn generalizing q with
  | nil => cases hq
  | append_singleton frames f ih =>
    have hf := h f (List.mem_append_right _ List.mem_cons_self)
    rw [residual_concat] at hq
    cases f with
    | bind var => exact hf.elim
    | before rest =>
      cases hr : residual frames with
      | none =>
        rw [hr] at hq
        cases rest with
        | nil => cases hq
        | cons p rest =>
          cases hq
          exact (Program.bare_block_iff _).mpr hf
      | some p =>
        rw [hr] at hq
        cases hq
        have hp := ih (fun g hg => h g (List.mem_append_left _ hg)) hr
        exact (Program.bare_block_iff _).mpr (List.forall_mem_cons.mpr ⟨hp, hf⟩)

end Frame

/-- The launch of a bare program: blocks are all there is around its statement, and it passes at once only if the
program may end as it is. -/
structure Launch.Bare (s : State) (p : Program) (l : Launch) : Prop where
  frames : ∀ f ∈ l.frames, f.Bare
  passed : ∀ o, l.work = .settled (.ok o) → l.frames = [] ∧ p.isFinal s = .ok true

namespace Program

variable {c : Setting} {s t : State} {σ τ : World} {p q init : Program}

theorem bare_cases (c : Setting) (s : State) :
    DispatchCases c s (fun p _ _ l => p.Bare → l.Bare s p) (fun _ _ _ _ _ _ _ => True) where
  failed _ _ _ _ _ _ := ⟨List.forall_mem_nil _, by rintro o ⟨⟩⟩
  finished _ _ _ h _ := ⟨List.forall_mem_nil _, fun _ _ => ⟨rfl, h.isFinal⟩⟩
  call _ _ scopes σ b _ _ := by
    refine ⟨List.forall_mem_nil _, ?_⟩
    intro o ho
    obtain ⟨e, he⟩ | ⟨-, he⟩ := Work.perform_cases scopes [] [] s b σ
    · rw [he] at ho
      cases ho
    · rw [he] at ho
      cases ho
  plan _ _ _ _ _ _ hp := absurd hp (not_bare_control (by decide) _)
  enter p q _ _ l he h hp := by
    obtain ⟨hf, ho⟩ := h (he.bare hp)
    exact ⟨hf, fun o h => ⟨(ho o h).1, he.isFinal (ho o h).2⟩⟩
  skip p rest _ _ l hf h hp := by
    have hr := ((bare_block_iff _).mp hp)
    obtain ⟨hl, ho⟩ := h ((bare_block_iff rest).mpr fun q hq => hr q (List.mem_cons_of_mem p hq))
    refine ⟨hl, fun o h => ⟨(ho o h).1, ?_⟩⟩
    rw [isFinal_block_cons, hf]
    exact (ho o h).2
  before p rest _ _ l hf h hp := by
    obtain ⟨hpb, hr⟩ := List.forall_mem_cons.mp ((bare_block_iff _).mp hp)
    obtain ⟨hl, ho⟩ := h hpb
    constructor
    · intro f hm
      rcases List.mem_append.mp hm with hm | hm
      · exact hl f hm
      · obtain rfl := List.mem_singleton.mp hm
        exact hr
    · -- a statement that passes at once would have been skipped
      intro o h
      have hn := (ho o h).2
      rw [hf] at hn
      cases hn
  bind var init _ _ _ _ hp := absurd hp (not_bare_bind var init)
  decided kind branches _ _ hk _ _ _ hp :=
    absurd hp (not_bare_control (by rcases hk with rfl | rfl <;> decide) branches)
  group kind branches _ _ _ hk _ _ _ _ hp :=
    absurd hp (not_bare_control (by rcases hk with rfl | rfl <;> decide) branches)
  nil _ _ _ _ _ := trivial
  done _ _ _ _ _ _ _ _ _ _ := trivial
  mark _ _ _ _ _ _ _ _ _ _ _ := trivial
  start _ _ _ _ _ _ _ _ _ _ _ _ _ := trivial

/-- The last transition of a binding, from one world to another: the initialiser may end as it is and null is bound, or
one action is executed and what it reports is bound. -/
inductive Binds (x : String) (init : Program) (s : State) (σ τ : World) : State → Prop
  | passed : init.isFinal s = .ok true → τ.dispatched = σ.dispatched → Binds x init s σ τ (s.bindVar x .null)
  | reported {b : BoundAction} {result : Option Value} : τ.dispatched = σ.dispatched ++ [b] →
      b.action.outcome = .ok result → Binds x init s σ τ ((b.action.effect s).bindVar x (result.getD .null))

theorem transition_bind_cases {x : String} {t : Successor} (hi : init.Bare) (hσ : σ.detached = [])
    (h : (bind x init).transition c s σ = (.ok t, τ)) :
    τ.detached = [] ∧
      (t.continuation = none ∧ Binds x init s σ τ t.state ∨ ∃ q, t.continuation = some (bind x q) ∧ q.Bare) := by
  obtain ⟨r, hl, -, -⟩ := commits_dispatch c s init σ hi.keeps
  have hb := (bare_cases c s).dispatch init [] σ hi
  have hd : (bind x init).dispatch c s [] σ = (init.dispatch c s [] σ).within (.bind x) := by rw [dispatch]
  generalize init.dispatch c s [] σ = l at hl hb hd
  cases hl with
  | refused _ | pruned _ =>
    rw [transition_of_settled hd] at h
    cases h
  | @passed frames =>
    obtain ⟨rfl, hf⟩ := hb.passed _ rfl
    rw [transition_of_settled hd] at h
    cases h
    exact ⟨hσ, .inl ⟨rfl, .passed hf rfl⟩⟩
  | @started frames b _ =>
    obtain ⟨υ, hυ, ⟨result, ho, ht⟩ | ⟨message, -, ht⟩⟩ := transition_of_started hd
    · rw [ht, Frame.resume_concat, Frame.resume_of_bare hb.frames] at h
      cases h
      obtain ⟨hn, ha⟩ := hυ hσ
      refine ⟨hn, ?_⟩
      rw [Frame.apply, Successor.bound]
      cases hr : Frame.residual frames with
      | none => exact .inl ⟨rfl, .reported ha ho⟩
      | some q => exact .inr ⟨q, rfl, Frame.bare_residual hb.frames hr⟩
    · rw [ht] at h
      cases h

theorem exists_binds_of_drive {x : String} (hi : init.Bare) (hσ : σ.detached = [])
    (h : ((bind x init).drive c s σ).result = .ok t) :
    ∃ q u τ updates, (bind x init).Reaches c s σ (bind x q) u τ updates ∧
      Binds x q u τ ((bind x init).drive c s σ).world t := by
  generalize hp : bind x init = p at h ⊢
  fun_induction drive c p s σ generalizing init with
  | case1 => cases h
  | case2 p s σ hf =>
    subst hp
    rw [isFinal] at hf
    cases hf
  | case3 => cases h
  | case4 p s σ _ t' τ ht hc =>
    subst hp
    cases h
    obtain ⟨-, ⟨-, hb⟩ | ⟨q, hq, -⟩⟩ := transition_bind_cases hi hσ ht
    · exact ⟨init, s, σ, [], .refl _ s σ, hb⟩
    · rw [hc] at hq
      cases hq
  | case5 p s σ hf t' τ ht q hc ih =>
    subst hp
    obtain ⟨hτ, ⟨hn, -⟩ | ⟨r, hr, hb⟩⟩ := transition_bind_cases hi hσ ht
    · rw [hc] at hn
      cases hn
    · obtain rfl : q = bind x r := Option.some.inj (hc.symm.trans hr)
      obtain ⟨q, u, υ, updates, hq, hl⟩ := ih hb hτ rfl h
      exact ⟨q, u, υ, _, .step hf ht hc hq, hl⟩

/-- A binding, of which the initialiser has no binding, no planning and no branches side by side, stores what the last
action executed in the run reports, or null if it reports nothing, provided that nothing of the initialiser remained
after it. If something remained that may end as it is, or if no action was executed, it stores null. -/
theorem bind_stores_last_report (c : Setting) {x : String} {init : Program} {s t : State}
    (hv : (bind x init).validate = .ok ()) (hk : init.keepsTo (.without [.plan, .conc, .either]) = true)
    (hb : ∀ var, init.binds var = false) (hr : ((bind x init).run c s).result = .ok t) :
    ∃ q u σ updates, (bind x init).Reaches c s c.initial (bind x q) u σ updates ∧
      (q.isFinal u = .ok true ∧ ((bind x init).run c s).world.dispatched = σ.dispatched ∧ t = u.bindVar x .null ∨
        ∃ b result, ((bind x init).run c s).world.dispatched = σ.dispatched ++ [b] ∧ b.action.outcome = .ok result ∧
          t = (b.action.effect u).bindVar x (result.getD .null)) := by
  rw [run_of_validate c s hv] at hr ⊢
  obtain ⟨q, u, σ, updates, hq, hl⟩ := exists_binds_of_drive ⟨hk, hb⟩ rfl hr
  refine ⟨q, u, σ, updates, hq, ?_⟩
  cases hl with
  | passed hf hd => exact .inl ⟨hf, hd, rfl⟩
  | reported hd ho => exact .inr ⟨_, _, hd, ho, rfl⟩

def putThenOnly (rest : List Program) : Program :=
  .control .or [.block (.call "Put" [("value", .const (.int 1)), ("result", .const (.int 3))] :: rest)]

/-- The report of the second action is bound, and not that of the first one. -/
theorem bind_stores_last_report_putThenOnly :
    (bind "x" (putThenOnly [.call "Identity" [("value", .const (.int 7))]])).validate = .ok () ∧
    (putThenOnly [.call "Identity" [("value", .const (.int 7))]]).keepsTo (.without [.plan, .conc, .either]) = true ∧
    (∀ var, (putThenOnly [.call "Identity" [("value", .const (.int 7))]]).binds var = false) ∧
    ∃ t q u σ updates, ((bind "x" (putThenOnly [.call "Identity" [("value", .const (.int 7))]])).run Setting.standard
        {}).result = .ok t ∧ t.var? "x" = some (.int 7) ∧
      (bind "x" (putThenOnly [.call "Identity" [("value", .const (.int 7))]])).Reaches
        Setting.standard {} Setting.standard.initial (bind "x" q) u σ updates ∧
      (q.isFinal u = .ok true ∧ t = u.bindVar "x" .null ∨
        ∃ b result, ((bind "x" (putThenOnly [.call "Identity" [("value", .const (.int 7))]])).run Setting.standard
            {}).world.dispatched = σ.dispatched ++ [b] ∧ b.action.outcome = .ok result ∧
          t = (b.action.effect u).bindVar "x" (result.getD .null)) := by
  have hb : ∀ var, (putThenOnly [.call "Identity" [("value", .const (.int 7))]]).binds var = false := fun _ => rfl
  have hs : ((bind "x" (putThenOnly [.call "Identity" [("value", .const (.int 7))]])).run Setting.standard
      {}).result.toOption.map (·.var? "x") = some (some (.int 7)) := by
    rw [run_of_validate _ _ rfl, drive_eq]
    conv in drive _ _ _ _ => rw [drive_eq]
    cbv
  refine ⟨rfl, by decide, hb, ?_⟩
  cases hr : ((bind "x" (putThenOnly [.call "Identity" [("value", .const (.int 7))]])).run Setting.standard
      {}).result with
  | error f =>
    rw [hr] at hs
    cases hs
  | ok t =>
    rw [hr] at hs
    obtain ⟨q, u, σ, updates, hq, hl⟩ := bind_stores_last_report Setting.standard rfl (by decide) hb hr
    exact ⟨t, q, u, σ, updates, rfl, Option.some.inj hs, hq, hl.imp_left fun h => ⟨h.1, h.2.2⟩⟩

/-- What the last action reports is lost when a test remains after it. -/
theorem report_lost_before_test :
    (bind "x" (putThenOnly [.test (.const (.bool true))])).validate = .ok () ∧
    (putThenOnly [.test (.const (.bool true))]).keepsTo (.without [.plan, .conc, .either]) = true ∧
    (∀ var, (putThenOnly [.test (.const (.bool true))]).binds var = false) ∧
    ∃ t, ((bind "x" (putThenOnly [.test (.const (.bool true))])).run Setting.standard {}).result = .ok t ∧
      ((bind "x" (putThenOnly [.test (.const (.bool true))])).run Setting.standard {}).world.dispatched.getLast?.map
        (·.action.outcome) = some (.ok (some (.int 3))) ∧ t.var? "x" = some .null := by
  have hs : (match (bind "x" (putThenOnly [.test (.const (.bool true))])).run Setting.standard {} with
      | ⟨.ok t, τ⟩ => some (t.var? "x", τ.dispatched.getLast?.map (·.action.outcome))
      | ⟨.error _, _⟩ => none) = some (some .null, some (.ok (some (.int 3)))) := by
    rw [run_of_validate _ _ rfl, drive_eq]
    conv in drive _ _ _ _ => rw [drive_eq]
    cbv
  refine ⟨rfl, by decide, fun _ => rfl, ?_⟩
  rcases hr : (bind "x" (putThenOnly [.test (.const (.bool true))])).run Setting.standard {} with ⟨e | t, τ⟩
  · rw [hr] at hs
    cases hs
  · rw [hr] at hs
    obtain ⟨hx, hd⟩ := Prod.mk.inj (Option.some.inj hs)
    exact ⟨t, rfl, hd, hx⟩

end Program

end Agenda
