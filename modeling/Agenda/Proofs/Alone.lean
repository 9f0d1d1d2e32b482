import Mathlib
import Agenda.Proofs.SideBySide

/-!
# What is given up does not matter

A work that nobody waits for dispatches nothing, because it lies in a closed scope. All it does to the others is to draw
tickets and scopes and to let the clock stop on its way. So a machine and one in which such works vanish at once go
side by side, except while both wait for a timer of the main work: then the first one may do much, and the second one
stands still.
-/

namespace Agenda

set_option autoImplicit false

theorem Work.Moves.nextTicket_le {c : Setting} {w w' : Work} {σ τ : World} (h : Moves c w σ w' τ) :
    σ.nextTicket ≤ τ.nextTicket := by
  induction h with
  | @act e σ τ w h =>
    obtain ⟨-, he⟩ | ⟨-, ⟨-, he⟩ | ⟨-, he⟩ | ⟨-, he⟩ | ⟨latency, -, he⟩⟩ := Execution.advance_cases h
    · cases he
      exact Nat.le_refl _
    · have hc := (e.steady_complete σ).nextTicket
      rw [← he] at hc
      exact Nat.le_of_eq hc.symm
    · have hc := (e.steady_complete σ.spend).nextTicket
      rw [← he] at hc
      exact Nat.le_of_eq hc.symm
    · cases he
      exact Nat.le_succ _
    · cases he
      exact Nat.le_succ _
  | finish _ _ => exact Nat.le_refl _
  | starve _ _ _ => exact Nat.le_refl _
  | rest _ _ _ => exact Nat.le_refl _
  | fail _ _ _ => exact Nat.le_refl _
  | decide _ _ _ _ => exact Nat.le_refl _
  | @go s t σ short _ _ _ _ =>
    have hr := (Program.steady_cases c t.state).round t.slots (t.scope :: t.outer) (fun _ => false) 0 t.nextSeq σ
    exact Nat.le_of_eq hr.nextTicket.symm
  | follow _ _ ih => exact ih
  | receive _ _ => exact Nat.le_refl _

namespace Machine

def alone (m : Machine) : Machine := { m with world := { m.world with detached := [] } }

theorem lex_alone (m : Machine) {x : Nat × Nat × Nat}
    (h : Prod.Lex (· < ·) (Prod.Lex (· < ·) (· < ·)) (m.weight, m.fatigue, m.unrest) x) :
    Prod.Lex (· < ·) (Prod.Lex (· < ·) (· < ·)) (m.alone.weight, m.alone.fatigue, m.alone.unrest) x := by
  have hw : m.alone.weight ≤ m.weight := Nat.le_add_right _ _
  have hf : m.alone.fatigue = m.fatigue := rfl
  have hu : m.alone.unrest ≤ m.unrest := Nat.le_add_right _ _
  obtain ⟨a, b, d⟩ := x
  rw [Prod.lex_iff, Prod.lex_iff] at h ⊢
  simp only at h ⊢
  omega

/-- Steps until the main work is settled, and drops what is given up on the way. -/
def settleAlone (c : Setting) (m : Machine) : Machine :=
  match m.main with
  | .settled _ => m
  | _ =>
    match _h : m.step c with
    | none => m
    | some m' => m'.alone.settleAlone c
termination_by (m.weight, m.fatigue, m.unrest)
decreasing_by exact m'.lex_alone (m.lex_step c _h)

theorem settleAlone_of_settled {c : Setting} {m : Machine} {outcome : Except Failure Outcome}
    (h : m.main = .settled outcome) : m.settleAlone c = m := by
  rw [settleAlone, h]

theorem settleAlone_of_none {c : Setting} {m : Machine} (h : m.step c = none) : m.settleAlone c = m := by
  rw [settleAlone]
  split
  · rfl
  · split
    · rfl
    · rename_i hs
      rw [h] at hs
      cases hs

theorem settleAlone_of_some {c : Setting} {m m' : Machine} (hm : ∀ outcome, m.main ≠ .settled outcome)
    (h : m.step c = some m') : m.settleAlone c = m'.alone.settleAlone c := by
  rw [settleAlone]
  split
  · rename_i outcome ho
    exact absurd ho (hm outcome)
  · split
    · rename_i hs
      rw [h] at hs
      cases hs
    · rename_i u hs
      rw [h] at hs
      cases hs
      rfl

theorem nextDue_of_alone {m : Machine} (h : m.world.detached = []) : m.nextDue = m.main.nextDue := by
  rw [nextDue, h]
  cases m.main.nextDue <;> rfl

theorem Waits.step_of_alone {m : Machine} (hw : m.Waits) (hd : m.world.detached = []) (c : Setting) :
    m.step c = m.main.nextDue.map fun time => m.ring c time := by
  unfold step
  rw [(Work.advance_eq_none_iff c m.main m.world).mpr hw.still]
  simp only
  rw [if_neg hw.rested, if_neg (Bool.eq_false_iff.mp hw.quiet), nextDue_of_alone hd, hd]
  rfl

/-- Without works that nobody waits for there is one step only that a machine can take. -/
theorem step_of_steps {c : Setting} {m m' : Machine} (hd : m.world.detached = []) (h : Steps c m m') :
    m.step c = some m' := by
  cases h with
  | move h =>
    unfold step
    rw [Work.advance_eq_some_iff.mpr h]
  | takeUp hs ha =>
    unfold step
    rw [(Work.advance_eq_none_iff c m.main m.world).mpr hs]
    exact if_pos ha
  | wake hs ha hk =>
    unfold step
    rw [(Work.advance_eq_none_iff c m.main m.world).mpr hs]
    simp only
    rw [if_neg ha, if_pos hk]
  | detached _ he _ =>
    rw [hd] at he
    cases List.append_eq_nil_iff.mp he.symm |>.2
  | ring hw ht =>
    rw [hw.step_of_alone hd, ← nextDue_of_alone hd, ht]
    rfl

theorem Scoped.alone {m : Machine} (h : m.Scoped) : m.alone.Scoped := by
  refine ⟨h.inside, List.forall_mem_nil _, ?_⟩
  refine le_trans ?_ h.scopes
  exact add_le_add_left (add_le_add_right (Multiset.zero_le _) _) _

theorem Scoped.open {m : Machine} (h : m.Scoped) : m.main.Open m.world [] where
  inside := h.inside
  admits := ⟨List.forall_mem_nil _, fun i hi => h.closed_lt ((m.world.isClosed_iff i).mpr hi)⟩
  scopes i hi hc := by
    have hn := h.not_closed hi
    rw [(m.world.isClosed_iff i).mpr hc] at hn
    cases hn

/-! ### Going side by side -/

/-- Both machines wait for the same timer. -/
structure Dozes (delay : Nat) (before : List BoundAction) (R : Nat → Nat → Prop) (m t : Machine) : Prop where
  main : m.main.Alike delay R t.main
  tickets : Pairing R m.world.nextTicket t.world.nextTicket
  dispatched : m.world.dispatched = before ++ t.world.dispatched
  waits : m.Waits
  waits' : t.Waits

/-- How two machines go side by side, when so much is left around their main works: step by step, or waiting. -/
inductive Course (around : Nat) (before : List BoundAction) (m t : Machine) : Prop
  | abreast (g : Gap) (R : Nat → Nat → Prop) : g.before = before → Work.Together g R m.main m.world t.main t.world →
      World.Even (m.main.load + around) m.world t.world → Course around before m t
  | dozing (delay : Nat) (R : Nat → Nat → Prop) : (∀ outcome, m.main ≠ .settled outcome) →
      Dozes delay before R m t → Course around before m t

/-- The second machine does what the first one does with its main work. -/
structure Follows (around : Nat) (before : List BoundAction) (m t : Machine) : Prop where
  left : m.Scoped
  right : t.Scoped
  alone : t.world.detached = []
  course : Course around before m t

variable {c : Setting} {around : Nat} {before : List BoundAction} {m t : Machine}

theorem Course.alike (h : Course around before m t) : ∃ delay R, m.main.Alike delay R t.main := by
  cases h with
  | abreast g R _ ht _ => exact ⟨g.delay, R, ht.work⟩
  | dozing delay R _ hd => exact ⟨delay, R, hd.main⟩

theorem Course.dozes (h : Course around before m t) (hw : m.Waits) : ∃ delay R, Dozes delay before R m t := by
  cases h with
  | abreast g R hg ht he =>
    have hw' : t.Waits := by
      refine ⟨ht.work.isStill_eq.trans hw.still, ?_, ht.work.asks_eq.trans hw.quiet⟩
      exact mt he.allowance_eq_zero_iff.mpr hw.rested
    exact ⟨g.delay, R, ht.work, ht.world.tickets, hg ▸ ht.world.dispatched, hw, hw'⟩
  | dozing delay R _ hd => exact ⟨delay, R, hd⟩

theorem Course.alone (h : Course around before m t) : Course around before m t.alone := by
  cases h with
  | abreast g R hg ht he =>
    exact .abreast g R hg ⟨ht.work, ht.world.clock, ht.world.allowance, ht.world.tickets, ht.world.dispatched⟩ he
  | dozing delay R hm hd =>
    have hw' : t.alone.Waits := ⟨hd.waits'.still, hd.waits'.rested, hd.waits'.quiet⟩
    exact .dozing delay R hm ⟨hd.main, hd.tickets, hd.dispatched, hd.waits, hw'⟩

theorem even_of_spends {σ σ' π π' : World} {load load' : Nat} (he : World.Even (load + around) σ π)
    (hs : σ.Spends σ' load load') {g : Gap} {R R' : Nat → Nat → Prop} (hb : σ.Beside g R π) (hb' : σ'.Beside g R' π') :
    World.Even (load' + around) σ' π' := by
  have h₁ := hs.allowance
  have h₂ := hs.load
  have h₃ := hb.allowance
  have h₄ := hb'.allowance
  unfold World.Even at he ⊢
  omega

/-- The clock of the first machine moves: either the timer is due for which both machines wait, or nothing happens in
the main work. -/
theorem Dozes.ring (around : Nat) {delay : Nat} {R : Nat → Nat → Prop} (h : Dozes delay before R m t)
    (hd : t.world.detached = []) {time : Nat} (ht : m.nextDue = some time) :
    (∃ due, t.nextDue = some due ∧ Course around before (m.ring c time) (t.ring c due)) ∨
      (m.ring c time).main = m.main ∧ Dozes delay before R (m.ring c time) t := by
  by_cases hm : m.main.nextDue = some time
  · left
    -- both looks begin anew, so the allowances are the same from here on
    rw [h.main.nextDue_eq] at hm
    obtain ⟨due, hdue, rfl⟩ := Option.map_eq_some_iff.mp hm
    refine ⟨due, (nextDue_of_alone hd).trans hdue, ?_⟩
    exact .abreast ⟨delay, 0, before⟩ R rfl ⟨h.main.ring h.tickets due, rfl, (add_zero _).symm, h.tickets, h.dispatched⟩
      (.inl rfl)
  · right
    have hn : (m.ring c time).main = m.main := by
      refine (Work.ring_of_lt_nextDue fun due hdue => ?_).2
      rw [nextDue, hdue] at ht
      refine lt_of_le_of_ne ?_ fun he => hm (he ▸ hdue)
      cases hr : m.world.detached.foldr (fun w t => Option.merge min w.nextDue t) none with
      | none =>
        rw [hr] at ht
        exact Nat.le_of_eq (Option.some.inj ht).symm
      | some other =>
        rw [hr] at ht
        rw [← Option.some.inj ht]
        exact min_le_left due other
    refine ⟨hn, ⟨?_, h.tickets, h.dispatched, ⟨?_, c.budget_ne_zero, ?_⟩, h.waits'⟩⟩
    · rw [hn]
      exact h.main
    · rw [hn]
      exact h.waits.still
    · rw [hn]
      exact h.waits.quiet

theorem Follows.step (h : Follows around before m t) (hm : ∀ outcome, m.main ≠ .settled outcome) {m' : Machine}
    (hs : Steps c m m') : Follows around before m' t ∨ ∃ t', Steps c t t' ∧ Follows around before m' t'.alone := by
  have hl := hs.scoped h.left
  have together {t' : Machine} (hs' : Steps c t t') (hc : Course around before m' t') :
      ∃ t', Steps c t t' ∧ Follows around before m' t'.alone :=
    ⟨t', hs', hl, (hs'.scoped h.right).alone, rfl, hc.alone⟩
  cases hs with
  | @move main world hs =>
    right
    cases h.course with
    | abreast g R hg ht he =>
      obtain ⟨w', π', R', hs', -, ht'⟩ := hs.alike ht h.left.open h.right.open (he.mono (Nat.le_add_right _ _))
      exact together (.move hs') (.abreast g R' hg ht' (even_of_spends he hs.spends ht.world ht'.world))
    | dozing delay R _ hz => exact absurd (hs.isStill_eq_false.symm.trans hz.waits.still) Bool.false_ne_true
  | takeUp hst ha =>
    right
    cases h.course with
    | abreast g R hg ht he =>
      apply together (.takeUp (ht.work.isStill_eq.trans hst) (he.allowance_eq_zero_iff.mp ha))
      exact .abreast { g with lead := 0 } R hg ⟨ht.work.takeUp ht.world.tickets, ht.world.clock, (add_zero _).symm,
        ht.world.tickets, ht.world.dispatched⟩ (.inl rfl)
    | dozing delay R _ hz => exact absurd ha hz.waits.rested
  | wake hst ha hk =>
    right
    cases h.course with
    | abreast g R hg ht he =>
      refine together (.wake (ht.work.isStill_eq.trans hst) (mt he.allowance_eq_zero_iff.mpr ha)
        (ht.work.asks_eq.trans hk)) ?_
      exact .abreast { g with lead := 0 } R hg ⟨ht.work.wake, ht.world.clock, (add_zero _).symm, ht.world.tickets,
        ht.world.dispatched⟩ (.inl rfl)
    | dozing delay R _ hz =>
      rw [hz.waits.quiet] at hk
      cases hk
  | @detached front rest w w' τ hw he hd =>
    -- the machine has nothing else to do, so it waits, and only its counters change
    left
    obtain ⟨delay, R, hz⟩ := h.course.dozes hw
    obtain ⟨-, -, hdis⟩ := h.left.move_detached he hd m.world.allowance
    have hn : m.world.nextTicket ≤ τ.nextTicket := by
      obtain hmv | ⟨-, -, rfl, rfl⟩ := Work.move_cases hd
      · exact hmv.nextTicket_le
      · exact Nat.le_refl _
    have hw' : Waits ⟨m.main,
        { τ with detached := front ++ w' :: rest ++ τ.detached, allowance := m.world.allowance }⟩ :=
      ⟨hw.still, hw.rested, hw.quiet⟩
    exact ⟨hl, h.right, h.alone,
      .dozing delay R hm ⟨hz.main, hz.tickets.later hn, hdis.trans hz.dispatched, hw', hz.waits'⟩⟩
  | @ring time hw ht =>
    obtain ⟨delay, R, hz⟩ := h.course.dozes hw
    obtain ⟨due, hdue, hc⟩ | ⟨hn, hz'⟩ := hz.ring around h.alone ht
    · right
      exact together (.ring hz.waits' hdue) hc
    · left
      refine ⟨hl, h.right, h.alone, .dozing delay R ?_ hz'⟩
      rw [hn]
      exact hm

theorem waits_of_step_eq_none (h : m.step c = none) : m.Waits ∧ m.nextDue = none := by
  unfold step at h
  split at h
  · cases h
  · rename_i hn
    have hs := (Work.advance_eq_none_iff c m.main m.world).mp hn
    split at h
    · cases h
    · rename_i ha
      split at h
      · cases h
      · rename_i hk
        split at h
        · cases h
        · exact ⟨⟨hs, ha, Bool.not_eq_true _ ▸ hk⟩, Option.map_eq_none_iff.mp h⟩

theorem Follows.step_eq_none (h : Follows around before m t) (hs : m.step c = none) : t.step c = none := by
  obtain ⟨hw, hn⟩ := waits_of_step_eq_none hs
  obtain ⟨delay, R, hz⟩ := h.course.dozes hw
  have hm : m.main.nextDue = none := by
    rw [nextDue] at hn
    cases hm : m.main.nextDue with
    | none => rfl
    | some due =>
      rw [hm] at hn
      cases hr : m.world.detached.foldr (fun w t => Option.merge min w.nextDue t) none <;> rw [hr] at hn <;> cases hn
  rw [hz.main.nextDue_eq, Option.map_eq_none_iff] at hm
  rw [hz.waits'.step_of_alone h.alone, hm]
  rfl

/-- Settling a machine settles the one that follows it, without what is given up. -/
theorem follows_settle (h : Follows around before m t) : Follows around before (m.settle c) (t.settleAlone c) := by
  -- the first machine leads: for each of its steps the second one takes one or none
  fun_induction settle c m generalizing t with
  | case1 m outcome hm =>
    obtain ⟨delay, R, ha⟩ := h.course.alike
    rw [settleAlone_of_settled ((ha.eq_settled_iff outcome).mpr hm)]
    exact h
  | case2 m hs hm =>
    rw [settleAlone_of_none (h.step_eq_none hs)]
    exact h
  | case3 m m' hs hm ih =>
    obtain hf | ⟨t', ht, hf⟩ := h.step hm (steps_of_step hs)
    · exact ih hf
    · obtain ⟨delay, R, ha⟩ := h.course.alike
      rw [settleAlone_of_some (fun outcome => mt (ha.eq_settled_iff outcome).mp (hm outcome))
        (step_of_steps h.alone ht)]
      exact ih hf

theorem Follows.outcome_eq (h : Follows around before m t) : m.outcome = t.outcome := by
  obtain ⟨delay, R, ha⟩ := h.course.alike
  unfold outcome
  generalize m.main = w at ha
  generalize t.main = w' at ha
  cases ha <;> rfl

theorem Follows.dispatched (h : Follows around before m t) : m.world.dispatched = before ++ t.world.dispatched := by
  cases h.course with
  | abreast g R hg ht _ =>
    rw [← hg]
    exact ht.world.dispatched
  | dozing delay R _ hz => exact hz.dispatched

theorem Follows.beside (h : Follows around before m t) {outcome : Except Failure Outcome}
    (hm : m.main = .settled outcome) : ∃ g R, g.before = before ∧ m.world.Beside g R t.world := by
  cases h.course with
  | abreast g R hg ht _ => exact ⟨g, R, hg, ht.world⟩
  | dozing delay R hn _ => exact absurd hm (hn outcome)

theorem Follows.even (h : Follows around before m t) {outcome : Except Failure Outcome}
    (hm : m.main = .settled outcome) : World.Even around m.world t.world := by
  cases h.course with
  | abreast g R _ _ he => exact he.mono (Nat.le_add_left _ _)
  | dozing delay R hn _ => exact absurd hm (hn outcome)

end Machine

/-- All that goes on by itself lies in closed scopes. -/
structure World.Regular (σ : World) : Prop where
  sealed : ∀ w ∈ σ.detached, σ.Sealed w
  scopes : σ.closedScopes + σ.detachedScopes ≤ Multiset.range σ.nextScope

theorem World.regular_initial (allowance : Nat) : Regular { allowance } := ⟨List.forall_mem_nil _, Multiset.zero_le _⟩

theorem Machine.Scoped.regular {m : Machine} (h : m.Scoped) : m.world.Regular :=
  ⟨h.sealed, le_trans (le_add_right (le_refl _)) h.scopes⟩

namespace Program

variable {c : Setting} {p : Program} {s : State} {σ τ : World}

theorem scoped_started (c : Setting) (p : Program) (s : State) (h : σ.Regular) : (p.started c s σ).Scoped := by
  obtain ⟨hi, he⟩ := (scopes_cases c s).dispatch p [] σ
  refine ⟨hi, ?_, ?_⟩
  · intro w hw
    rw [started, he.detached] at hw
    exact (h.sealed w hw).mono (le_of_eq he.closed.symm)
  · rw [started, World.detachedScopes, he.detached, he.closed, ← Machine.range_add_Ico he.le]
    exact add_le_add h.scopes he.opened

theorem follows_started_beside (c : Setting) (p : Program) (s : State) (hσ : σ.Regular) (hτ : τ.Regular)
    (hd : τ.detached = []) {g : Gap} {R : Nat → Nat → Prop} (hb : σ.Beside g R τ) (he : World.Even p.calls σ τ) :
    (p.dispatch c s [] τ).frames = (p.dispatch c s [] σ).frames ∧
      Machine.Follows (Frame.calls (p.dispatch c s [] σ).frames) g.before (p.started c s σ) (p.started c s τ) := by
  have admits {υ : World} (h : υ.Regular) : υ.Admits [] :=
    ⟨List.forall_mem_nil _, fun i hi =>
      Multiset.mem_range.mp (Multiset.mem_of_le h.scopes (Multiset.mem_add.mpr (.inl hi)))⟩
  have hl := alike_dispatch c s p hb (admits hσ) (admits hτ)
  have hs := (steady_cases c s).dispatch p [] σ
  have ht := (steady_cases c s).dispatch p [] τ
  refine ⟨hl.frames, scoped_started c p s hσ, scoped_started c p s hτ, ht.detached.trans hd,
    .abreast g R rfl ⟨hl.work, hl.world⟩ ?_⟩
  have ha := he.mono ((load_cases c s).dispatch p [] σ)
  unfold World.Even at ha ⊢
  rw [started, started, hs.allowance, ht.allowance]
  exact ha

theorem follows_started (c : Setting) (p : Program) (s : State) (h : σ.Regular) (allowance : Nat)
    (he : World.Even p.calls σ { allowance }) :
    (p.dispatch c s [] { allowance }).frames = (p.dispatch c s [] σ).frames ∧
      Machine.Follows (Frame.calls (p.dispatch c s [] σ).frames) σ.dispatched (p.started c s σ)
        (p.started c s { allowance }) := by
  have hb : σ.Beside ⟨σ.clock, σ.allowance - allowance, σ.dispatched⟩ (fun _ _ => False) { allowance } := by
    refine ⟨(Nat.zero_add _).symm, ?_, Pairing.nothing _ _, (List.append_nil _).symm⟩
    simp only
    omega
  exact follows_started_beside c p s h (World.regular_initial allowance) rfl hb he

theorem regular_transition (c : Setting) (p : Program) (s : State) (h : σ.Regular) : (p.transition c s σ).2.Regular :=
  (Machine.settle_induction (fun _ _ hm hs => hs.scoped hm) _ (scoped_started c p s h)).regular

theorem regular_drive (h : σ.Regular) : (p.drive c s σ).world.Regular :=
  drive_induction (P := fun _ σ => σ.Regular) (fun _ _ h => h) (fun p s _ h => regular_transition c p s h)
    (fun p s _ _ _ h _ _ => regular_transition c p s h) s h

/-- A transition does not depend on the world that it is taken in. -/
theorem transition_alike (c : Setting) (s : State) (hσ : σ.Regular) (hτ : τ.Regular) (he : World.Even p.calls σ τ) :
    (p.transition c s σ).1 = (p.transition c s τ).1 ∧
      (∃ acts, (p.transition c s σ).2.dispatched = σ.dispatched ++ acts ∧
        (p.transition c s τ).2.dispatched = τ.dispatched ++ acts) ∧
      ∀ t, (p.transition c s σ).1 = .ok t →
        World.Even (callsOption t.continuation) (p.transition c s σ).2 (p.transition c s τ).2 := by
  obtain ⟨hf, hs⟩ := follows_started c p s hσ τ.allowance he
  obtain ⟨hf', ht⟩ := follows_started c p s hτ τ.allowance (.inl rfl)
  have hs := Machine.follows_settle (c := c) hs
  have ht := Machine.follows_settle (c := c) ht
  have hfr : (p.dispatch c s [] σ).frames = (p.dispatch c s [] τ).frames := hf.symm.trans hf'
  have heq : (p.transition c s σ).1 = (p.transition c s τ).1 := by
    have ho := hs.outcome_eq.trans ht.outcome_eq.symm
    unfold transition
    simp only
    rw [← started, ← started, ho, hfr]
  refine ⟨heq, ⟨_, hs.dispatched, ht.dispatched⟩, ?_⟩
  intro x hx
  obtain ⟨o, hm, rfl⟩ := transition_eq_ok hx
  obtain ⟨o', hm', -⟩ := transition_eq_ok (heq ▸ hx)
  rw [Frame.continuation_resume, ← Frame.calls]
  have h₁ := hs.even hm
  have h₂ := ht.even hm'
  rw [← hfr] at h₂
  exact h₁.trans_symm h₂

/-- Nor does a whole run, as long as the allowance of neither world runs out before that of the other one. -/
theorem drive_alike (hσ : σ.Regular) (hτ : τ.Regular) (he : World.Even p.calls σ τ) :
    (p.drive c s σ).result = (p.drive c s τ).result ∧
      ∃ acts, (p.drive c s σ).world.dispatched = σ.dispatched ++ acts ∧
        (p.drive c s τ).world.dispatched = τ.dispatched ++ acts := by
  fun_induction drive c p s σ generalizing τ with
  | case1 p s σ e hf =>
    rw [drive_eq, hf]
    exact ⟨rfl, [], (List.append_nil _).symm, (List.append_nil _).symm⟩
  | case2 p s σ hf =>
    rw [drive_eq, hf]
    exact ⟨rfl, [], (List.append_nil _).symm, (List.append_nil _).symm⟩
  | case3 p s σ hf e σ' h =>
    obtain ⟨heq, hd, -⟩ := transition_alike c s hσ hτ he
    rw [h] at heq hd
    rw [drive_eq, hf]
    simp only
    rw [← heq]
    exact ⟨rfl, hd⟩
  | case4 p s σ hf t σ' h hc =>
    obtain ⟨heq, hd, -⟩ := transition_alike c s hσ hτ he
    rw [h] at heq hd
    rw [drive_eq, hf]
    simp only
    rw [← heq]
    simp only
    rw [hc]
    exact ⟨rfl, hd⟩
  | case5 p s σ hf t σ' h q hc ih =>
    obtain ⟨heq, ⟨acts, hd, hd'⟩, hev⟩ := transition_alike c s hσ hτ he
    have hσ' := regular_transition c p s hσ
    have hτ' := regular_transition c p s hτ
    have hev := hev t (congrArg Prod.fst h)
    rw [h] at heq hσ' hd hev
    rw [hc] at hev
    obtain ⟨hr, more, hm, hm'⟩ := ih hσ' hτ' hev
    rw [drive_eq c p s τ, hf]
    simp only
    rw [← heq]
    simp only
    rw [hc]
    refine ⟨hr, acts ++ more, ?_, ?_⟩
    · rw [hm, hd, List.append_assoc]
    · rw [hm', hd', List.append_assoc]

end Program

end Agenda
