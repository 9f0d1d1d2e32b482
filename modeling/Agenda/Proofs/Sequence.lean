import Mathlib
import Agenda.Proofs.Alone

/-!
# One program after the other

A block runs its statements one after the other. What the first one leaves behind for the second one is the state, and
what is left of the allowance of the present look: a look that begins in the first program goes on in the second one.
-/

namespace Agenda

set_option autoImplicit false

namespace Run

/-- How a run ended, without what was left of the program. -/
def ending (r : Run) : Except (Failure × State) State :=
  match r.result with
  | .error f => .error (f.failure, f.state)
  | .ok s => .ok s

theorem result_of_ending {r : Run} {s : State} (h : r.ending = .ok s) : r.result = .ok s := by
  unfold ending at h
  split at h
  · cases h
  · rename_i hr
    cases h
    exact hr

/-- Goes on where a run ended, if it succeeded. -/
def andThen (r : Run) (next : State → World → Run) : Run :=
  match r.result with
  | .error _ => r
  | .ok s => next s r.world

theorem andThen_of_error {r : Run} {f : RunFailure} (h : r.result = .error f) (next : State → World → Run) :
    r.andThen next = r := by
  rw [andThen, h]

theorem andThen_of_ok {r : Run} {s : State} (h : r.result = .ok s) (next : State → World → Run) :
    r.andThen next = next s r.world := by
  rw [andThen, h]

/-- Runs that may have left different programs. -/
structure Same (r r' : Run) : Prop where
  ending : r.ending = r'.ending
  world : r.world = r'.world

theorem same_refl (r : Run) : r.Same r := ⟨rfl, rfl⟩

theorem same_error (e : Failure) (p q : Program) (s : State) (σ : World) :
    Same ⟨.error ⟨e, p, s⟩, σ⟩ ⟨.error ⟨e, q, s⟩, σ⟩ := ⟨rfl, rfl⟩

theorem Same.trans {r r' r'' : Run} (h : r.Same r') (h' : r'.Same r'') : r.Same r'' :=
  ⟨h.ending.trans h'.ending, h.world.trans h'.world⟩

theorem andThen_same {r : Run} {next next' : State → World → Run} (h : ∀ s τ, (next s τ).Same (next' s τ)) :
    (r.andThen next).Same (r.andThen next') := by
  unfold andThen
  split
  · exact same_refl r
  · exact h _ _

end Run

namespace Program

/-! ### Blocks -/

theorem transition_block_skip {c : Setting} {s : State} {p : Program} (h : p.isFinal s = .ok true) (rest : List Program)
    (σ : World) : (block (p :: rest)).transition c s σ = (block rest).transition c s σ := by
  have hd : (block (p :: rest)).dispatch c s [] σ = (block rest).dispatch c s [] σ := by
    simp only [dispatch, dispatchBlock, h]
  unfold transition
  rw [hd]

theorem transition_block_cons {c : Setting} {s : State} {p : Program} (h : p.isFinal s = .ok false)
    (rest : List Program) (σ : World) :
    ((block (p :: rest)).transition c s σ).1 = (p.transition c s σ).1.map (Successor.before rest) ∧
      ((block (p :: rest)).transition c s σ).2 = (p.transition c s σ).2 := by
  have hd : (block (p :: rest)).dispatch c s [] σ = (p.dispatch c s [] σ).within (.before rest) := by
    simp only [dispatch, dispatchBlock, h]
  unfold transition
  rw [hd]
  refine ⟨?_, rfl⟩
  simp only [Launch.within]
  generalize Machine.outcome _ = o
  cases o with
  | error e => rfl
  | ok o =>
    exact congrArg Except.ok (Frame.resume_concat _ _ o)

theorem drive_block_nil (c : Setting) (s : State) (σ : World) : (block []).drive c s σ = ⟨.ok s, σ⟩ := by
  rw [drive_eq]
  rfl

/-- A block runs its first statement and then the others, in one world. -/
theorem drive_block_cons (c : Setting) (p : Program) (rest : List Program) (s : State) (σ : World) :
    ((block (p :: rest)).drive c s σ).Same ((p.drive c s σ).andThen fun s τ => (block rest).drive c s τ) := by
  fun_induction drive c p s σ with
  | case1 p s σ e hf =>
    rw [drive_eq, isFinal_block_cons, hf]
    exact Run.same_error e _ _ s σ
  | case2 p s σ hf =>
    have ht := transition_block_skip (c := c) hf rest σ
    have hb := isFinal_block_cons s p rest
    rw [hf] at hb
    simp only [Run.andThen]
    rw [drive_eq c (block (p :: rest)), drive_eq c (block rest), ht, hb]
    simp only
    cases (block rest).isFinal s with
    | error e => exact Run.same_error e _ _ s σ
    | ok final =>
      cases final with
      | true => exact Run.same_refl _
      | false =>
        simp only
        cases ((block rest).transition c s σ).1 with
        | error e => exact Run.same_error e _ _ s _
        | ok t => exact Run.same_refl _
  | case3 p s σ hf e τ h =>
    obtain ⟨ht, hτ⟩ := transition_block_cons (c := c) hf rest σ
    rw [drive_eq, isFinal_block_cons, hf]
    simp only
    rw [ht, hτ, h]
    exact Run.same_error e _ _ s τ
  | case4 p s σ hf t τ h hc =>
    obtain ⟨ht, hτ⟩ := transition_block_cons (c := c) hf rest σ
    rw [drive_eq, isFinal_block_cons, hf]
    simp only
    rw [ht, hτ, h]
    simp only [Except.map, Successor.before, hc, Run.andThen]
    -- nothing remains of the first statement, and perhaps nothing of the block
    cases rest with
    | nil =>
      rw [drive_block_nil]
      exact Run.same_refl _
    | cons q rest => exact Run.same_refl _
  | case5 p s σ hf t τ h q hc ih =>
    obtain ⟨ht, hτ⟩ := transition_block_cons (c := c) hf rest σ
    rw [drive_eq, isFinal_block_cons, hf]
    simp only
    rw [ht, hτ, h]
    simp only [Except.map, Successor.before, hc, Successor.resequence]
    exact ih

theorem drive_block_pair (c : Setting) (p q : Program) (s : State) (σ : World) :
    ((block [p, q]).drive c s σ).Same ((p.drive c s σ).andThen fun s τ => q.drive c s τ) := by
  refine (drive_block_cons c p [q] s σ).trans (Run.andThen_same fun s τ => ?_)
  refine (drive_block_cons c q [] s τ).trans ?_
  simp only [drive_block_nil]
  unfold Run.andThen
  split
  · exact Run.same_refl _
  · rename_i s' hs
    exact ⟨by rw [Run.ending, Run.ending, hs], rfl⟩

end Program

/-! ### The allowance -/

/-- What has been spent of the allowance and what is left to wait for are no more than a total. -/
structure World.Affords (c : Setting) (total load : Nat) (σ : World) : Prop where
  allowance : σ.allowance ≤ c.budget.val
  bound : load ≤ total
  spent : c.budget.val + load ≤ σ.allowance + total

theorem World.Affords.mono {c : Setting} {total load less : Nat} {σ : World} (h : σ.Affords c total load)
    (hl : less ≤ load) : σ.Affords c total less :=
  ⟨h.allowance, hl.trans h.bound, (Nat.add_le_add_left hl _).trans h.spent⟩

theorem Machine.Steps.affords {c : Setting} {m m' : Machine} {around total : Nat} (h : Steps c m m')
    (hm : m.world.Affords c total (m.main.load + around)) : m'.world.Affords c total (m'.main.load + around) := by
  obtain ⟨ha, hl, hs⟩ := hm
  cases h with
  | @move main world h =>
    have h₁ := h.spends.allowance
    have h₂ := h.spends.load
    refine ⟨h₁.trans ha, ?_, ?_⟩
    · have h₃ := h.spends.load_le
      simp only
      omega
    · simp only
      omega
  | takeUp _ _ =>
    have he : m.main.takeUp.load = m.main.load := (Work.stirs_takeUp m.main).calls_eq 1
    rw [← he] at hl
    exact ⟨Nat.le_refl _, hl, Nat.add_le_add_left hl _⟩
  | wake _ _ _ =>
    have he : m.main.wake.load = m.main.load := (Work.stirs_wake m.main).calls_eq 1
    rw [← he] at hl
    exact ⟨Nat.le_refl _, hl, Nat.add_le_add_left hl _⟩
  | detached _ _ _ => exact ⟨ha, hl, hs⟩
  | @ring time _ _ =>
    have he : (m.main.ring time).load = m.main.load := (Work.stirs_ring m.main time).calls_eq 1
    rw [← he] at hl
    exact ⟨Nat.le_refl _, hl, Nat.add_le_add_left hl _⟩

namespace Program

variable {c : Setting} {p : Program} {s : State} {σ : World} {total : Nat}

theorem affords_transition (c : Setting) (s : State) (h : σ.Affords c total p.calls) :
    (p.transition c s σ).2.Affords c total (Frame.calls (p.dispatch c s [] σ).frames) := by
  have ha := ((steady_cases c s).dispatch p [] σ).allowance
  have hm := h.mono ((load_cases c s).dispatch p [] σ)
  have hs : (p.started c s σ).world.Affords c total
      ((p.started c s σ).main.load + Frame.calls (p.dispatch c s [] σ).frames) := by
    refine ⟨?_, hm.bound, ?_⟩
    · rw [started, ha]
      exact hm.allowance
    · rw [started, ha]
      exact hm.spent
  refine (Machine.settle_induction (P := fun m => m.world.Affords c total (m.main.load + _))
    (fun _ _ hm hs => hs.affords hm) _ hs).mono ?_
  exact Nat.le_add_left _ _

theorem affords_drive (h : σ.Affords c total p.calls) : (p.drive c s σ).world.Affords c total 0 := by
  refine drive_induction (P := fun p σ => σ.Affords c total p.calls) ?_ ?_ ?_ s h
  · intro p σ h
    exact h.mono (Nat.zero_le _)
  · intro p s σ h
    exact (affords_transition c s h).mono (Nat.zero_le _)
  · intro p s σ t q h ht hc
    obtain ⟨o, -, rfl⟩ := transition_eq_ok ht
    have hr := affords_transition c s h
    rw [Frame.continuation_resume] at hc
    rw [Frame.calls, hc] at hr
    exact hr

/-! ### Two programs -/

theorem validate_block_pair {p q : Program} (hp : p.validate = .ok ()) (hq : q.validate = .ok ()) :
    (block [p, q]).validate = .ok () := by
  simp only [validate, validateAll, hp, hq]
  rfl

theorem run_of_validate (c : Setting) {p : Program} (s : State) (h : p.validate = .ok ()) :
    p.run c s = p.drive c s c.initial := by
  rw [run, h]

theorem drive_by_itself {allowance : Nat} (hσ : σ.Regular) (he : World.Even p.calls σ { allowance }) :
    (p.drive c s σ).ending = (p.drive c s { allowance }).ending ∧
      (p.drive c s σ).history = σ.history ++ (p.drive c s { allowance }).history := by
  obtain ⟨hr, acts, hd, hd'⟩ := drive_alike (c := c) (s := s) hσ (World.regular_initial allowance) he
  have hn : ({ allowance } : World).dispatched = [] := rfl
  rw [hn, List.nil_append] at hd'
  constructor
  · rw [Run.ending, Run.ending, hr]
  · rw [Run.history, Run.history, World.history_eq, World.history_eq, World.history_eq, hd, hd', List.filter_append,
      List.map_append]

theorem drive_second {q : Program} {s₁ : State} {allowance : Nat} (h : (p.drive c s c.initial).result = .ok s₁)
    (he : World.Even q.calls (p.drive c s c.initial).world { allowance }) :
    ((block [p, q]).drive c s c.initial).ending = (q.drive c s₁ { allowance }).ending ∧
      ((block [p, q]).drive c s c.initial).history =
        (p.drive c s c.initial).history ++ (q.drive c s₁ { allowance }).history := by
  have hs := drive_block_pair c p q s c.initial
  rw [Run.andThen_of_ok h] at hs
  obtain ⟨ha, hh⟩ := drive_by_itself (c := c) (s := s₁) (regular_drive (World.regular_initial _)) he
  refine ⟨hs.ending.trans ha, ?_⟩
  rw [Run.history, hs.world]
  exact hh

/-- Two valid programs in a block. If the first one fails, the block fails in the same way. Otherwise the second one is
run with what the first one left of the allowance, and no other trace of the first one than the state and the history.
That is a run of its own if nothing was spent or if it has fewer calls than are left, and no more was spent than the
first one has calls. -/
theorem run_block_pair (c : Setting) {p q : Program} (s : State) (hp : p.validate = .ok ())
    (hq : q.validate = .ok ()) :
    (∀ f, (p.run c s).result = .error f →
      ((block [p, q]).run c s).ending = .error (f.failure, f.state) ∧
        ((block [p, q]).run c s).history = (p.run c s).history) ∧
    (∀ s₁, (p.run c s).result = .ok s₁ →
      ((block [p, q]).run c s).ending = (q.drive c s₁ { allowance := (p.run c s).world.allowance }).ending ∧
        ((block [p, q]).run c s).history =
          (p.run c s).history ++ (q.drive c s₁ { allowance := (p.run c s).world.allowance }).history) ∧
    (∀ s₁, (p.run c s).result = .ok s₁ →
      (p.run c s).world.allowance = c.budget.val ∨ q.calls < (p.run c s).world.allowance →
      ((block [p, q]).run c s).ending = (q.run c s₁).ending ∧
        ((block [p, q]).run c s).history = (p.run c s).history ++ (q.run c s₁).history) ∧
    c.budget.val ≤ (p.run c s).world.allowance + p.calls := by
  rw [run_of_validate c s hp, run_of_validate c s (validate_block_pair hp hq)]
  have hb : (p.drive c s c.initial).world.Affords c p.calls 0 :=
    affords_drive ⟨Nat.le_refl _, Nat.le_refl _, Nat.le_refl _⟩
  refine ⟨?_, ?_, ?_, ?_⟩
  · intro f hf
    have hs := drive_block_pair c p q s c.initial
    rw [Run.andThen_of_error hf] at hs
    refine ⟨hs.ending.trans ?_, ?_⟩
    · rw [Run.ending, hf]
    · rw [Run.history, hs.world]
      rfl
  · intro s₁ h
    exact drive_second h (.inl rfl)
  · intro s₁ h hl
    rw [run_of_validate c s₁ hq]
    refine drive_second h (hl.imp id fun hl => ⟨hl, ?_⟩)
    exact Nat.lt_of_lt_of_le hl hb.allowance
  · exact hb.spent

/-- A race whose loser is a plan in the midst of its actions. -/
def raceWithPlan : Program :=
  .control .either
    [.control .plan [.block [.call "Inc" [("key", .const (.text "lost")), ("ms", .const (.int 4))],
        .call "Inc" [("key", .const (.text "lost")), ("ms", .const (.int 4))]]],
      .call "Inc" [("key", .const (.text "n")), ("ms", .const (.int 3))]]

def countLong : Program :=
  .control .conc
    [.call "Inc" [("key", .const (.text "n")), ("ms", .const (.int 10))],
      .call "Inc" [("key", .const (.text "n")), ("ms", .const (.int 2))]]

theorem run_block_pair_raceWithPlan :
    ∃ s₁, (raceWithPlan.run Setting.standard {}).result = .ok s₁ ∧ raceWithPlan.validate = .ok () ∧
      countLong.validate = .ok () ∧
      ((block [raceWithPlan, countLong]).run Setting.standard {}).ending = (countLong.run Setting.standard s₁).ending ∧
      ((block [raceWithPlan, countLong]).run Setting.standard {}).history =
        (raceWithPlan.run Setting.standard {}).history ++ (countLong.run Setting.standard s₁).history := by
  have hs : (raceWithPlan.run Setting.standard {}).result.toOption.isSome = true := by
    rw [run_of_validate _ _ rfl, drive_eq]
    cbv
  cases h : (raceWithPlan.run Setting.standard {}).result with
  | error f =>
    rw [h] at hs
    cases hs
  | ok s₁ =>
    obtain ⟨-, -, hr, hb⟩ := run_block_pair (p := raceWithPlan) (q := countLong) Setting.standard {} rfl rfl
    have hl : 128 ≤ (raceWithPlan.run Setting.standard {}).world.allowance + 3 := hb
    have hq : countLong.calls < (raceWithPlan.run Setting.standard {}).world.allowance := by
      have hc : countLong.calls = 2 := rfl
      omega
    obtain ⟨he, hh⟩ := hr s₁ h (.inr hq)
    exact ⟨s₁, rfl, rfl, rfl, he, hh⟩

/-! ### What a look carries over -/

/-- An execution that waits for no time starts and ends in two steps, and uses up one wait of the allowance. -/
theorem settle_instant (c : Setting) {e : Execution} {result : Option Value} (ht : e.timer = .idle)
    (hp : e.postponed = none) (hr : e.trace = []) (hl : e.bound.action.latency = some 0)
    (ho : e.bound.action.outcome = .ok result) {σ : World} (ha : σ.allowance ≠ 0) :
    (Machine.settle c ⟨.acting e, σ⟩).main = .settled (.ok ⟨e.after, result, e.updates ++ [.effect e.bound]⟩) ∧
      (Machine.settle c ⟨.acting e, σ⟩).world.allowance = σ.allowance - 1 := by
  have hstart : Machine.step c ⟨.acting e, σ⟩ = some ⟨(e.start σ).1, (e.start σ).2⟩ := by
    simp only [Machine.step, Work.advance, Execution.advance, hp, ht]
    rfl
  have hend : Machine.step c ⟨(e.start σ).1, (e.start σ).2⟩ =
      some ⟨.settled (.ok ⟨e.after, result, e.updates ++ [.effect e.bound]⟩),
        (e.start σ).2.spend.record (.completed e.bound.record σ.clock)⟩ := by
    have hz : (σ.record (.started e.bound e.scopes σ.clock)).allowance ≠ 0 := ha
    simp only [Execution.start, Machine.step, Work.advance, Execution.advance, hp, hl, if_neg hz, Execution.complete,
      ho, hr]
    rfl
  rw [Machine.settle_of_some (fun _ h => Work.noConfusion h) hstart,
    Machine.settle_of_some (fun _ h => Work.noConfusion h) hend, Machine.settle_of_settled rfl]
  exact ⟨rfl, rfl⟩

/-- A call that waits for no time ends at once and uses up one wait of the allowance. -/
theorem drive_call_instant {name : String} {args : Fields Expr} {bound : BoundAction} {result : Option Value}
    (hr : c.domain.resolve s name args = .ok bound) (hp : bound.action.possible s = true)
    (hl : bound.action.latency = some 0) (ho : bound.action.outcome = .ok result) (ha : σ.allowance ≠ 0) :
    ((call name args).drive c s σ).result = .ok (bound.action.effect s) ∧
      ((call name args).drive c s σ).world.allowance = σ.allowance - 1 := by
  have hd : (call name args).dispatch c s [] σ =
      { work := .acting { bound, after := bound.action.effect s, trace := [], updates := [], scopes := [] },
        world := σ.record (.dispatched bound [] σ.clock) } := by
    simp [dispatch, hr, Work.perform, hp]
  have hz : (σ.record (.dispatched bound [] σ.clock)).allowance ≠ 0 := ha
  obtain ⟨hm, hw⟩ := settle_instant c
    (e := { bound, after := bound.action.effect s, trace := [], updates := [], scopes := [] }) rfl rfl rfl hl ho hz
  have ht : ((call name args).transition c s σ).1 =
      .ok { continuation := none, state := bound.action.effect s, result, updates := [.effect bound] } := by
    rw [result_transition, started, hd]
    simp only [Machine.outcome, hm]
    rfl
  have ha : ((call name args).transition c s σ).2.allowance = σ.allowance - 1 := by
    rw [world_transition, started, hd]
    exact hw
  rw [drive_eq, isFinal, ht]
  exact ⟨rfl, ha⟩

def nap : Program := .call "Sleep" [("time", .const (.int 0))]

theorem drive_nap (s : State) (h : σ.allowance ≠ 0) :
    (nap.drive Setting.standard s σ).result = .ok s ∧
      (nap.drive Setting.standard s σ).world.allowance = σ.allowance - 1 := by
  have hr : Setting.standard.domain.resolve s "Sleep" [("time", .const (.int 0))] =
      .ok ⟨⟨"Sleep", [("time", .int 0)]⟩,
        { latency := some 0, outcome := .ok (some (.bool true)), recorded := false }⟩ := rfl
  exact drive_call_instant hr rfl rfl rfl h

theorem validate_naps (n : Nat) : (block (List.replicate n nap)).validate = .ok () := by
  rw [validate]
  induction n with
  | zero => rfl
  | succ n ih =>
    rw [List.replicate_succ, validateAll, ih]
    rfl

theorem drive_naps (n : Nat) (s : State) (h : n ≤ σ.allowance) :
    ((block (List.replicate n nap)).drive Setting.standard s σ).ending = .ok s ∧
      ((block (List.replicate n nap)).drive Setting.standard s σ).world.allowance = σ.allowance - n := by
  induction n generalizing σ with
  | zero =>
    rw [List.replicate_zero, drive_block_nil]
    exact ⟨rfl, rfl⟩
  | succ n ih =>
    obtain ⟨hr, ha⟩ := drive_nap (σ := σ) s (by omega)
    have hs := drive_block_cons Setting.standard nap (List.replicate n nap) s σ
    rw [Run.andThen_of_ok hr] at hs
    obtain ⟨he, hw⟩ := ih (σ := (nap.drive Setting.standard s σ).world) (by omega)
    rw [List.replicate_succ, hs.world, hs.ending, he, hw, ha]
    exact ⟨rfl, by omega⟩

/-- Counts up a fact in two branches; one of them then tells how far the count is. -/
def countTwice : Program :=
  .control .conc
    [.block [.call "Inc" [("key", .const (.text "n"))],
        .branch (.op .eq (.ref "n") (.const (.int 2))) (.call "Put" [("value", .const (.text "both"))])
          (some (.call "Put" [("value", .const (.text "one"))]))],
      .call "Inc" [("key", .const (.text "n"))]]

/-- After so many naps the allowance runs out between the two counts. Then they are not folded together, and the run of
the block ends in another state than the second program does by itself. -/
theorem block_pair_naps_countTwice :
    (block (List.replicate 127 nap)).validate = .ok () ∧ countTwice.validate = .ok () ∧
      ((block (List.replicate 127 nap)).run Setting.standard {}).result = .ok {} ∧
      (countTwice.run Setting.standard {}).ending.toOption.bind (·.fact? "slot") = some (.text "both") ∧
      ((block [block (List.replicate 127 nap), countTwice]).run Setting.standard {}).ending.toOption.bind
        (·.fact? "slot") = some (.text "one") ∧
      ((block [block (List.replicate 127 nap), countTwice]).run Setting.standard {}).ending ≠
        (countTwice.run Setting.standard {}).ending := by
  have hp := validate_naps 127
  have hq : countTwice.validate = .ok () := rfl
  obtain ⟨he, ha⟩ := drive_naps (σ := Setting.standard.initial) 127 {} (by decide)
  rw [run_of_validate _ _ hp, run_of_validate _ _ hq, run_of_validate _ _ (validate_block_pair hp hq)]
  have hone : ((block [block (List.replicate 127 nap), countTwice]).drive
      Setting.standard {} Setting.standard.initial).ending.toOption.bind (·.fact? "slot") = some (.text "one") := by
    rw [(drive_second (Run.result_of_ending he) (.inl ha)).1, drive_eq]
    cbv
  have hboth : (countTwice.drive Setting.standard {} Setting.standard.initial).ending.toOption.bind (·.fact? "slot") =
      some (.text "both") := by
    rw [drive_eq]
    cbv
  refine ⟨hp, hq, Run.result_of_ending he, hboth, hone, ?_⟩
  intro heq
  rw [heq, hboth] at hone
  have ht : "both" = "one" := Value.text.inj (Option.some.inj hone)
  exact absurd ht (by decide)

end Program

end Agenda
