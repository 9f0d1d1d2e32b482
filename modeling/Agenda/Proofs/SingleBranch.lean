import Mathlib
import Agenda.Proofs.Origins
import Agenda.Proofs.Progress
import Agenda.Proofs.Replay

/-!
# Constructs with one branch

A construct drives its branches by itself: it looks at what is under way, folds the updates into a state of its own,
asks whether what remains may end, and dispatches it otherwise. With a single branch it takes more steps than a run of
the branch, because it has to look at its flight to see that it waits. None of these steps changes the flight or the
allowance. So the flight goes on just as the transition does by itself, and the construct ends as the run does.
-/

namespace Agenda

set_option autoImplicit false

namespace Scheduler

/-- The construct with one slot, which is under way in these flights. -/
def single (u : Scheduler Work) (queue waiting : List (Flight Work)) (attention : Attention) : Scheduler Work :=
  { u with slots := [.blocked], batch := [], queue, waiting, attention }

variable (u : Scheduler Work)

theorem slotsFinished_single (kind : Control) (p : Program) : slotsFinished kind [p] = p.isDone := by
  unfold slotsFinished
  split
  · exact Bool.or_false _
  · exact Bool.and_true _

theorem faces_single (f : Flight Work) (again : Bool) : (u.single [f] [] (.looking 0 0 again)).Faces f [] :=
  ⟨⟨rfl, slotsFinished_single _ _⟩, rfl, rfl⟩

end Scheduler

namespace Work

variable (u : Scheduler Work) (f : Flight Work)

theorem byTicket_singleton (ticket : Option Nat) :
    byTicket [(ticket, f)] = if ticket.isSome then [f] else [] := by
  cases ticket <;> simp [byTicket]

theorem ticketless_singleton (ticket : Option Nat) :
    ticketless [(ticket, f)] = if ticket.isSome then [] else [f] := by
  cases ticket <;> simp [ticketless]

theorem takeUp_single_queue : (group (u.single [f] [] (.resting true))).takeUp =
    group (u.single [{ f with work := f.work.takeUp }] [] .fresh) := by
  simp [takeUp, takeUpFlights, Scheduler.single, byTicket, ticketless, Attention.isResting, Attention.again]

theorem takeUp_single_waiting : (group (u.single [] [f] (.resting true))).takeUp =
    if f.work.lastPostponed.isSome then group (u.single [{ f with work := f.work.takeUp }] [] .fresh)
    else group (u.single [] [{ f with work := f.work.takeUp }] .fresh) := by
  simp only [takeUp, takeUpFlights, Scheduler.single, byTicket_singleton, ticketless_singleton]
  split <;> simp [Attention.isResting, Attention.again]

theorem ring_single {time : Nat} (h : (f.work.dueTicket time).isSome = true) (attention : Attention) :
    (group (u.single [] [f] attention)).ring time =
      group (u.single [{ f with work := f.work.ring time }] [] .fresh) := by
  have hd : (dueTicketOfFlights time [f]).isSome = true := by
    rw [dueTicketOfFlights]
    obtain ⟨ticket, ht⟩ := Option.isSome_iff_exists.mp h
    rw [ht]
    rfl
  simp only [ring, ringFlights, Scheduler.single, byTicket_singleton, ticketless_singleton, h, hd, if_true]
  rfl

theorem still_takeUp {w : Work} (hs : w.isStill = true) (ha : w.asks = false) (hl : w.lastPostponed.isSome = false) :
    w.takeUp.isStill = true ∧ w.takeUp.asks = false := by
  cases w with
  | settled outcome => exact ⟨rfl, rfl⟩
  | acting e =>
    have hp : e.postponed = none := Option.isSome_eq_false_iff.mp hl |> Option.isNone_iff_eq_none.mp
    simp only [takeUp, ← hp]
    exact ⟨hs, rfl⟩
  | group s =>
    have hs : s.attention.isResting = true := hs
    have hl : (lastPostponedOfFlights s.waiting).isSome = false := hl
    have ha : s.attention.again = false := by
      rw [asks, hs, Bool.true_and] at ha
      exact ha
    simp only [takeUp, isStill, asks, hs, ha, hl, Bool.or_self, Bool.and_false, Bool.false_eq_true, if_false]
    exact ⟨trivial, trivial⟩

theorem takeUp_ne_settled {w : Work} (h : ∀ outcome, w ≠ .settled outcome) :
    ∀ outcome, w.takeUp ≠ .settled outcome := by
  cases w with
  | settled outcome => exact absurd rfl (h outcome)
  | acting e => rintro outcome ⟨⟩
  | group s => rintro outcome ⟨⟩

theorem takeUp_wake {w : Work} (h : w.asks = true) : w.wake.takeUp = w.takeUp := by
  cases w with
  | settled outcome => rfl
  | acting e => rfl
  | group s =>
    obtain ⟨hr, ha⟩ := Bool.and_eq_true_iff.mp h
    simp only [wake, takeUp, hr, ha, Bool.true_or, Bool.and_self, if_true]
    rfl

theorem isSome_dueTicket {w : Work} {due : Nat} (h : w.nextDue = some due) : (w.dueTicket due).isSome = true := by
  cases hd : w.dueTicket due with
  | none => exact absurd (lt_of_dueTicket hd due h) (Nat.lt_irrefl _)
  | some ticket => rfl

theorem Moves.alike_of_second {c : Setting} {w w' w₁' : Work} {σ π π₁ : World} (h : Moves c w' π w₁' π₁) {g : Gap}
    {R : Nat → Nat → Prop} (ht : Together g R w σ w' π) {around around' : List Nat} (ho : w.Open σ around)
    (ho' : w'.Open π around') (hl : World.Even w.load σ π) :
    ∃ w₁ σ₁ R', Moves c w σ w₁ σ₁ ∧ Together g R' w₁ σ₁ w₁' π₁ := by
  have hs : w.isStill = false := ht.work.isStill_eq.symm.trans h.isStill_eq_false
  cases ha : w.advance c σ with
  | none =>
    have hn := (advance_eq_none_iff c w σ).mp ha
    rw [hs] at hn
    cases hn
  | some next =>
    -- there is one step only that the second work can take
    have hm := advance_eq_some_iff.mp ha
    obtain ⟨w₂', π₂, R', hm', -, ht'⟩ := hm.alike ht ho ho' hl
    have he := (advance_eq_some_iff.mpr h).symm.trans (advance_eq_some_iff.mpr hm')
    obtain ⟨rfl, rfl⟩ := Prod.mk.inj (Option.some.inj he)
    exact ⟨_, _, R', hm, ht'⟩

theorem Together.detached {g : Gap} {R : Nat → Nat → Prop} {w w' : Work} {σ π : World} (h : Together g R w σ w' π)
    (works works' : List Work) : Together g R w { σ with detached := works } w' { π with detached := works' } :=
  ⟨h.work, h.world.clock, h.world.allowance, h.world.tickets, h.world.dispatched⟩

end Work

namespace Machine

variable {c : Setting} {m m' m'' t t' : Machine}

/-- The scopes are in order, and nothing goes on by itself. -/
structure Solitary (m : Machine) : Prop extends Scoped m where
  alone : m.world.detached = []

/-- The first machine comes to the second one: from then on both go the same way until they are settled. -/
def Becomes (c : Setting) (m m' : Machine) : Prop :=
  m.Solitary → m'.Solitary ∧ m.settleAlone c = m'.settleAlone c

theorem becomes_refl (c : Setting) (m : Machine) : Becomes c m m := fun h => ⟨h, rfl⟩

theorem Becomes.trans (h : Becomes c m m') (h' : Becomes c m' m'') : Becomes c m m'' := by
  intro hm
  obtain ⟨hs, he⟩ := h hm
  obtain ⟨hs', he'⟩ := h' hs
  exact ⟨hs', he.trans he'⟩

section

variable {s : Scheduler Work} {σ : World}

theorem Steps.becomes (h : Steps c ⟨.group s, σ⟩ m) : Becomes c ⟨.group s, σ⟩ m.alone := by
  intro hs
  have hn : ∀ outcome, Work.group s ≠ .settled outcome := by
    rintro outcome ⟨⟩
  exact ⟨⟨(h.scoped hs.toScoped).alone, rfl⟩, settleAlone_of_some hn (step_of_steps hs.alone h)⟩

theorem Steps.becomes_of_detached (h : Steps c ⟨.group s, σ⟩ m) (hd : m.world.detached = σ.detached) :
    Becomes c ⟨.group s, σ⟩ m := by
  intro hs
  have he : m.alone = m := by
    have hn := hd.trans hs.alone
    rw [alone, ← hn]
  have hb := h.becomes hs
  rwa [he] at hb

end

/-! ### The looks of a construct -/

section

variable (c : Setting) (u : Scheduler Work) {f : Flight Work} (again : Bool) (σ : World)

abbrev awake (u : Scheduler Work) (f : Flight Work) (again : Bool) (σ : World) : Machine :=
  ⟨.group (u.single [f] [] (.looking 0 0 again)), σ⟩

/-- The construct rests until its only flight is due. -/
abbrev asleep (u : Scheduler Work) (f : Flight Work) (σ : World) : Machine :=
  ⟨.group (u.single [] [f] (.resting false)), σ⟩

/-- A sweep that is cut short ends with a request for another look. -/
theorem becomes_cut_short {queue waiting : List (Flight Work)} {attention : Attention}
    (ht : (u.single queue waiting attention).Turns true) (hf : queue ++ waiting ≠ []) :
    Becomes c ⟨.group (u.single queue waiting attention), σ⟩ ⟨.group (u.single queue waiting (.resting true)), σ⟩ := by
  have hs : Steps c ⟨.group (u.single queue waiting attention), σ⟩ _ := .move (.rest ht rfl hf)
  rw [Bool.or_true] at hs
  exact hs.becomes_of_detached rfl

theorem becomes_resting (hs : f.work.isStill = true) (hn : ∀ outcome, f.work ≠ .settled outcome) :
    Becomes c (awake u f again σ)
      ⟨.group (if f.work.asks then u.single [{ f with work := f.work.wake }] [] (.resting true)
        else u.single [] [f] (.resting true)), σ⟩ := by
  have hr : Steps c (awake u f again σ) _ := .move (.receive (u.faces_single f again) hs)
  refine (hr.becomes_of_detached rfl).trans ?_
  have he : (u.single [f] [] (.looking 0 0 again)).receive f [] =
      if f.work.asks then u.single [{ f with work := f.work.wake }] [] (.looking 1 1 again)
      else u.single [] [f] (.looking 1 0 again) := by
    unfold Scheduler.receive
    split
    · rename_i outcome ho
      exact absurd ho (hn outcome)
    · rfl
  rw [he]
  -- one look at the only flight is as many looks as there are flights
  split
  · apply becomes_cut_short
    · exact ⟨⟨rfl, Scheduler.slotsFinished_single _ _⟩, rfl, by rintro ⟨⟩⟩
    · exact List.cons_ne_nil _ _
  · apply becomes_cut_short
    · exact ⟨⟨rfl, Scheduler.slotsFinished_single _ _⟩, rfl, by rintro ⟨⟩⟩
    · exact List.cons_ne_nil _ _

theorem becomes_asleep : Becomes c ⟨.group (u.single [] [f] .fresh), σ⟩ (asleep u f σ) := by
  have ht : (u.single [] [f] .fresh).Turns false :=
    ⟨⟨rfl, Scheduler.slotsFinished_single _ _⟩, rfl, fun _ => rfl⟩
  exact Steps.becomes_of_detached (.move (.rest ht rfl (List.cons_ne_nil _ _))) rfl

theorem becomes_asleep_of_waits (hw : Waits ⟨f.work, σ⟩) (hn : ∀ outcome, f.work ≠ .settled outcome) :
    Becomes c (awake u f again σ) (asleep u f (σ.renew c)) := by
  have hr := becomes_resting c u again σ hw.still hn
  rw [hw.quiet] at hr
  refine hr.trans ?_
  have hk : Steps c ⟨.group (u.single [] [f] (.resting true)), σ⟩ _ := .wake rfl hw.rested rfl
  exact (hk.becomes_of_detached rfl).trans (becomes_asleep c u (σ.renew c))

theorem Solitary.awake {u : Scheduler Work} {σ : World} (h : (asleep u f σ).Solitary) :
    (awake u f again σ).Solitary := by
  have hs : Work.Stirs (.group (u.single [] [f] (.resting false))) (.group (u.single [f] [] (.looking 0 0 again))) :=
    .group [(f, f.work)] rfl (.refl _) (List.forall_mem_singleton.mpr (Work.stirs_refl _))
  exact ⟨h.toScoped.stirs hs rfl rfl Work.stirs_refl (List.map_id _).symm, h.alone⟩

end

/-! ### The flight goes on as it does by itself -/

/-- The second machine is a construct that looks at its only flight, and the work of the flight is alike to the main
work of the first one. Both have the same allowance. -/
inductive Wraps (u : Scheduler Work) (f : Flight Work) (before : List BoundAction) (t : Machine) : Machine → Prop
  | mk {w : Work} {σ : World} {R : Nat → Nat → Prop} (again : Bool) (delay : Nat) :
      Work.Together ⟨delay, 0, before⟩ R w σ t.main t.world →
      Wraps u f before t (awake u { f with work := w } again σ)

variable {u : Scheduler Work} {f : Flight Work} {before : List BoundAction}

theorem Wraps.alone (h : Wraps u f before t m) : Wraps u f before t.alone m := by
  cases h with
  | @mk w σ R again delay h => exact .mk again delay (h.detached σ.detached [])

/-- Taken up, a flight of which something was postponed is looked at at once. Any other one waits as it did, and it
would do so as well if it was looked at. -/
theorem becomes_takeUp {σ : World} (again : Bool) (hs : f.work.isStill = true)
    (hn : ∀ outcome, f.work ≠ .settled outcome) (ha : σ.allowance = 0) :
    Becomes c (awake u f again σ) (awake u { f with work := f.work.takeUp } false (σ.renew c)) := by
  refine (becomes_resting c u again σ hs hn).trans ?_
  cases hk : f.work.asks with
  | true =>
    have ht : Steps c ⟨.group (u.single [{ f with work := f.work.wake }] [] (.resting true)), σ⟩ _ := .takeUp rfl ha
    rw [Work.takeUp_single_queue, Work.takeUp_wake hk] at ht
    exact ht.becomes_of_detached rfl
  | false =>
    have ht : Steps c ⟨.group (u.single [] [f] (.resting true)), σ⟩ _ := .takeUp rfl ha
    rw [Work.takeUp_single_waiting] at ht
    cases hl : f.work.lastPostponed.isSome with
    | true =>
      rw [hl] at ht
      exact ht.becomes_of_detached rfl
    | false =>
      rw [hl] at ht
      obtain ⟨hs', ha'⟩ := Work.still_takeUp hs hk hl
      have hz := becomes_asleep_of_waits c u (f := { f with work := f.work.takeUp }) false (σ.renew c)
        ⟨hs', c.budget_ne_zero, ha'⟩ (Work.takeUp_ne_settled hn)
      intro hm
      obtain ⟨hm', he⟩ := ((ht.becomes_of_detached rfl).trans (becomes_asleep c u (σ.renew c))) hm
      exact ⟨hm'.awake false, he.trans (hz (hm'.awake false)).2.symm⟩

/-- A step of the first machine is a series of steps of the construct. -/
theorem Wraps.step (h : Wraps u f before t m) (hm : m.Solitary) (ht : t.Solitary)
    (hn : ∀ outcome, t.main ≠ .settled outcome) (hs : Steps c t t') :
    ∃ m', Becomes c m m' ∧ Wraps u f before t' m' := by
  cases h with
  | @mk w σ R again delay h =>
    have hw : ∀ outcome, w ≠ .settled outcome := fun outcome => mt (h.work.eq_settled_iff outcome).mpr (hn outcome)
    have hal : σ.allowance = t.world.allowance := by
      have hl := h.world.allowance
      simp only at hl
      omega
    cases hs with
    | @move main world hs =>
      have ho := hm.toScoped.open.flight (u.faces_single { f with work := w } again).mem_flights
      obtain ⟨w₁, σ₁, R', hmv, h'⟩ := hs.alike_of_second h ho ht.toScoped.open (.inl hal)
      have hf : Steps c (awake u { f with work := w } again σ) _ := .move (.follow (u.faces_single _ again) hmv)
      exact ⟨_, hf.becomes, .mk _ delay (h'.detached [] world.detached)⟩
    | takeUp hst ha =>
      refine ⟨_, becomes_takeUp again (h.work.isStill_eq.symm.trans hst) hw (hal.trans ha), .mk (R := R) false delay ?_⟩
      exact ⟨h.work.takeUp h.world.tickets, h.world.clock, (add_zero _).symm, h.world.tickets, h.world.dispatched⟩
    | wake hst ha hk =>
      have hr := becomes_resting c u (f := { f with work := w }) again σ (h.work.isStill_eq.symm.trans hst) hw
      rw [h.work.asks_eq.symm.trans hk] at hr
      have hk : Steps c ⟨.group (u.single [{ f with work := w.wake }] [] (.resting true)), σ⟩ _ :=
        .wake rfl (hal ▸ ha) rfl
      refine ⟨_, hr.trans (hk.becomes_of_detached rfl), .mk (R := R) false delay ?_⟩
      exact ⟨h.work.wake, h.world.clock, (add_zero _).symm, h.world.tickets, h.world.dispatched⟩
    | detached _ he _ =>
      rw [ht.alone] at he
      cases List.append_eq_nil_iff.mp he.symm |>.2
    | @ring due hwt hd =>
      have hwt' : Waits ⟨w, σ⟩ :=
        ⟨h.work.isStill_eq.symm.trans hwt.still, hal ▸ hwt.rested, h.work.asks_eq.symm.trans hwt.quiet⟩
      have hz := becomes_asleep_of_waits c u (f := { f with work := w }) again σ hwt' hw
      rw [nextDue_of_alone ht.alone] at hd
      have hdue : w.nextDue = some (due + delay) := by
        rw [h.work.nextDue_eq, hd]
        rfl
      have hnext : (asleep u { f with work := w } (σ.renew c)).nextDue = some (due + delay) := by
        rw [nextDue_of_alone (hz hm).1.alone]
        simp only [Work.nextDue, Scheduler.single, Work.nextDueOfFlights, hdue]
        rfl
      have hr : Steps c (asleep u { f with work := w } (σ.renew c)) _ := .ring ⟨rfl, c.budget_ne_zero, rfl⟩ hnext
      rw [Machine.ring, Work.ring_single u _ (Work.isSome_dueTicket hdue)] at hr
      refine ⟨_, hz.trans hr.becomes, .mk (R := R) false delay ?_⟩
      exact ⟨h.work.ring h.world.tickets due, rfl, (add_zero _).symm, h.world.tickets, h.world.dispatched⟩

/-- The construct comes to where the first machine is when its main work is settled. -/
theorem Wraps.settleAlone (h : Wraps u f before t m) (hm : m.Solitary) (ht : t.Solitary) :
    ∃ m', Becomes c m m' ∧ Wraps u f before (t.settleAlone c) m' := by
  -- the first machine leads: each of its steps is a series of steps of the construct
  fun_induction Machine.settleAlone c t generalizing m with
  | case1 t outcome ho => exact ⟨m, becomes_refl c m, h⟩
  | case2 t hs hn => exact ⟨m, becomes_refl c m, h⟩
  | case3 t t' hs hn ih =>
    have hst := steps_of_step hs
    obtain ⟨m₁, hb, hc⟩ := h.step hm ht hn hst
    obtain ⟨m₂, hb', hc'⟩ := ih hc.alone (hb hm).1 ⟨(hst.scoped ht.toScoped).alone, rfl⟩
    exact ⟨m₂, hb.trans hb', hc'⟩

end Machine

/-! ### From one transition to the next -/

theorem Program.isDone_of_isMark {p : Program} (h : p.isMark = false) : p.isDone = false := by
  cases p with
  | done => cases h
  | _ => rfl

namespace Scheduler

def took (u : Scheduler Work) (t : Successor) : Scheduler Work :=
  { u with
    state := Update.applyAll u.state t.updates
    result := t.result.or u.result
    applied := u.applied ++ t.updates }

theorem nextSlot_some (s : State) (p : Program) :
    nextSlot s (some p) = (p.isFinal s).map fun final => if final then .done else p := by
  rw [nextSlot]
  cases p.isFinal s with
  | error e => rfl
  | ok final => cases final <;> rfl

theorem foldAll_singleton {s : Scheduler Work} (h : s.isFinished = false) (d : Completion) :
    s.foldAll [d] = s.complete d := by
  rw [foldAll, if_neg (Bool.eq_false_iff.mp h)]
  cases s.complete d <;> rfl

def ended (u : Scheduler Work) (again : Bool) (d : Completion) : Scheduler Work :=
  { u.single [] [] (.looking 0 0 again) with batch := [d] }

theorem turns_ended (u : Scheduler Work) (again : Bool) (d : Completion) : (u.ended again d).Turns true :=
  ⟨⟨rfl, slotsFinished_single _ _⟩, rfl, by rintro ⟨⟩⟩

theorem foldBatch_ended (u : Scheduler Work) (again : Bool) (seq : Nat) (frames : List Frame)
    (outcome : Except Failure Outcome) :
    (u.ended again ⟨0, seq, frames, outcome⟩).foldBatch =
      outcome.bind fun o => (nextSlot (u.took (Frame.resume frames o)).state (Frame.residual frames)).map fun next =>
        { (u.took (Frame.resume frames o)).single [] [] (.looking 0 0 again) with slots := [next] } := by
  have hf : (u.single [] [] (.looking 0 0 again)).isFinished = false := slotsFinished_single _ _
  have he : (u.ended again ⟨0, seq, frames, outcome⟩).foldBatch =
      (u.single [] [] (.looking 0 0 again)).complete ⟨0, seq, frames, outcome⟩ := by
    rw [foldBatch, ended, List.mergeSort_singleton]
    exact foldAll_singleton hf _
  rw [he]
  cases outcome with
  | error e => rfl
  | ok o =>
    simp only [complete, absorb, Frame.continuation_resume]
    rfl

end Scheduler

namespace Machine

section

variable {c : Setting} (u : Scheduler Work) (seq : Nat) {frames : List Frame} (outcome : Except Failure Outcome)
  (again : Bool) (σ : World)

def entered (c : Setting) (u : Scheduler Work) (p : Program) (seq : Nat) (again : Bool) (σ : World) : Machine :=
  let l := p.dispatch c u.state (u.scope :: u.outer) σ
  awake u ⟨0, seq, l.frames, l.work⟩ again l.world

theorem becomes_ended : Becomes c (awake u ⟨0, seq, frames, .settled outcome⟩ again σ)
    ⟨.group (u.ended again ⟨0, seq, frames, outcome⟩), σ⟩ :=
  Steps.becomes_of_detached (.move (.receive (u.faces_single _ again) rfl)) rfl

theorem becomes_failed {e : Failure}
    (h : (outcome.bind fun o => Scheduler.nextSlot (u.took (Frame.resume frames o)).state (Frame.residual frames)) =
      .error e) :
    ∃ τ, τ.dispatched = σ.dispatched ∧
      Becomes c (awake u ⟨0, seq, frames, .settled outcome⟩ again σ) ⟨.settled (.error e), τ⟩ := by
  have he : (u.ended again ⟨0, seq, frames, outcome⟩).foldBatch = .error e := by
    rw [Scheduler.foldBatch_ended]
    cases outcome with
    | error e' => exact congrArg Except.error (Except.error.inj h)
    | ok o =>
      have h : Scheduler.nextSlot (u.took (Frame.resume frames o)).state (Frame.residual frames) = .error e := h
      rw [Except.bind, h]
      rfl
  have hs : Steps c ⟨.group (u.ended again ⟨0, seq, frames, outcome⟩), σ⟩ _ :=
    .move (.fail (u.turns_ended again _) (List.cons_ne_nil _ _) he)
  refine ⟨_, ?_, (becomes_ended u seq _ again σ).trans hs.becomes⟩
  exact World.dispatched_abandon σ u.scope []

variable {o : Outcome}

theorem becomes_finished
    (h : Scheduler.nextSlot (u.took (Frame.resume frames o)).state (Frame.residual frames) = .ok .done) :
    ∃ τ, τ.dispatched = σ.dispatched ∧
      Becomes c (awake u ⟨0, seq, frames, .settled (.ok o)⟩ again σ)
        ⟨.settled (.ok (u.took (Frame.resume frames o)).outcome), τ⟩ := by
  have he := u.foldBatch_ended again seq frames (.ok o)
  rw [Except.bind, h] at he
  have hs : Steps c ⟨.group (u.ended again ⟨0, seq, frames, .ok o⟩), σ⟩ _ :=
    .move (.decide (u.turns_ended again _) (List.cons_ne_nil _ _) he (Scheduler.slotsFinished_single _ _))
  refine ⟨_, ?_, (becomes_ended u seq _ again σ).trans hs.becomes⟩
  exact World.dispatched_abandon σ u.scope []

theorem becomes_entered {next : Program}
    (h : Scheduler.nextSlot (u.took (Frame.resume frames o)).state (Frame.residual frames) = .ok next)
    (hn : next.isMark = false) :
    Becomes c (awake u ⟨0, seq, frames, .settled (.ok o)⟩ again σ)
      (entered c { u.took (Frame.resume frames o) with nextSeq := u.nextSeq + 1 } next u.nextSeq again σ) := by
  have he := u.foldBatch_ended again seq frames (.ok o)
  rw [Except.bind, h] at he
  have hd := Program.isDone_of_isMark hn
  have hs : Steps c ⟨.group (u.ended again ⟨0, seq, frames, .ok o⟩), σ⟩ _ :=
    .move (.go (u.turns_ended again _) (List.cons_ne_nil _ _) he ((Scheduler.slotsFinished_single _ _).trans hd))
  refine (becomes_ended u seq _ again σ).trans ?_
  simp only [Scheduler.dispatchLive, Scheduler.single, Program.dispatchSlots, hn] at hs
  exact hs.becomes_of_detached ((Program.steady_cases c _).dispatch next _ σ).detached

end

end Machine

/-- Runs that end in the same state or with the same failure, and show the same history. The failures may be reported
with different programs and states. -/
structure Run.Agrees (r r' : Run) : Prop where
  result : r.result.mapError RunFailure.failure = r'.result.mapError RunFailure.failure
  history : r.history = r'.history

namespace Program

open Machine

variable {c : Setting} {u : Scheduler Work} {p : Program} {s : State} {seq : Nat} {again : Bool} {σ π : World}

/-- The flight of the branch comes to the end that the transition has by itself. -/
theorem becomes_transition (hm : (entered c u p seq again σ).Solitary) (hσ : σ.Admits (u.scope :: u.outer))
    (hπ : π.Regular) (he : World.Even p.calls π σ) :
    ∃ frames outcome again' σ',
      Becomes c (entered c u p seq again σ) (awake u ⟨0, seq, frames, .settled outcome⟩ again' σ') ∧
      (p.transition c u.state π).1 = outcome.map (Frame.resume frames) ∧
      (∃ acts, (p.transition c u.state π).2.dispatched = π.dispatched ++ acts ∧
        σ'.dispatched = σ.dispatched ++ acts) ∧
      World.Even (Frame.calls frames) (p.transition c u.state π).2 σ' := by
  obtain ⟨hf, hfo⟩ := follows_started c p u.state hπ σ.allowance he
  have hfs := follows_settle (c := c) hfo
  obtain ⟨outcome, ho⟩ := settles_started c p u.state π
  obtain ⟨_, _, ha⟩ := hfs.course.alike
  have ho' := (ha.eq_settled_iff outcome).mpr ho
  have hb : σ.Beside ⟨σ.clock, 0, σ.dispatched⟩ (fun _ _ => False) { allowance := σ.allowance } :=
    ⟨(Nat.zero_add _).symm, (add_zero _).symm, Pairing.nothing _ _, (List.append_nil _).symm⟩
  have hl := alike_dispatch c u.state p hb hσ ⟨List.forall_mem_nil _, fun i hi => by cases hi⟩
  have hc : Wraps u ⟨0, seq, (p.dispatch c u.state (u.scope :: u.outer) σ).frames,
      (p.dispatch c u.state (u.scope :: u.outer) σ).work⟩ σ.dispatched
      (p.started c u.state { allowance := σ.allowance }) (entered c u p seq again σ) :=
    .mk again σ.clock ⟨hl.work, hl.world⟩
  obtain ⟨m', hbm, hc'⟩ := hc.settleAlone (c := c) hm ⟨hfo.right, hfo.alone⟩
  cases hc' with
  | @mk w σ' R again' delay h =>
    obtain rfl := (h.work.eq_settled_iff outcome).mp ho'
    rw [← hl.frames, hf] at hbm
    refine ⟨(p.dispatch c u.state [] π).frames, outcome, again', σ', hbm, ?_, ?_, ?_⟩
    · rw [result_transition, Machine.outcome, ho]
    · exact ⟨_, hfs.dispatched, h.world.dispatched⟩
    · have hev := hfs.even ho
      have hal := h.world.allowance
      unfold World.Even at hev ⊢
      rw [world_transition]
      simp only at hal
      omega

/-- Where what remains may end, or where that cannot be told, the construct and the run are over at once. -/
theorem becomes_over (u : Scheduler Work) (seq : Nat) (again : Bool) (σ : World) {frames : List Frame} {o : Outcome}
    {q : Program} {s' : State} (hc : Scheduler.nextSlot (u.took (Frame.resume frames o)).state (Frame.residual frames) =
      (q.isFinal s').map fun final => if final then .done else q)
    (hs : (u.took (Frame.resume frames o)).state = s') (hq : q.isFinal s' ≠ .ok false) (π : World) :
    ∃ outcome τ, Becomes c (awake u ⟨0, seq, frames, .settled (.ok o)⟩ again σ) ⟨.settled outcome, τ⟩ ∧
      outcome.map Outcome.state = (q.drive c s' π).result.mapError RunFailure.failure ∧
      τ.dispatched = σ.dispatched ∧ (q.drive c s' π).world = π := by
  cases hf : q.isFinal s' with
  | error e =>
    rw [hf] at hc
    obtain ⟨τ, hτ, hb⟩ := becomes_failed u seq (.ok o) again σ hc
    rw [drive_eq, hf]
    exact ⟨_, τ, hb, rfl, hτ, rfl⟩
  | ok final =>
    cases final with
    | false => exact absurd hf hq
    | true =>
      rw [hf] at hc
      obtain ⟨τ, hτ, hb⟩ := becomes_finished u seq again σ hc
      rw [drive_eq, hf]
      exact ⟨_, τ, hb, congrArg Except.ok hs, hτ, rfl⟩

/-- The construct ends as the run of its branch does, and both dispatch the same. -/
theorem becomes_drive (hu : u.state = s) (hf : p.isFinal s = .ok false) (hm : (entered c u p seq again σ).Solitary)
    (hσ : σ.Admits (u.scope :: u.outer)) (hπ : π.Regular) (he : World.Even p.calls π σ) :
    ∃ outcome τ, Becomes c (entered c u p seq again σ) ⟨.settled outcome, τ⟩ ∧
      outcome.map Outcome.state = (p.drive c s π).result.mapError RunFailure.failure ∧
      ∃ acts, (p.drive c s π).world.dispatched = π.dispatched ++ acts ∧ τ.dispatched = σ.dispatched ++ acts := by
  -- one transition of the run after the other; in between the construct asks whether what remains may end
  fun_induction drive c p s π generalizing u seq again σ with
  | case1 p s π e hf' =>
    rw [hf'] at hf
    cases hf
  | case2 p s π hf' =>
    rw [hf'] at hf
    cases hf
  | case3 p s π _ e π' h =>
    subst hu
    obtain ⟨frames, outcome, again', σ', hb, ht, ⟨acts, hd, hd'⟩, -⟩ := becomes_transition hm hσ hπ he
    rw [h] at ht hd
    cases outcome with
    | ok o => cases ht
    | error e' =>
      cases ht
      obtain ⟨τ, hτ, hb'⟩ := becomes_failed u seq (.error e) again' σ' rfl
      exact ⟨_, τ, hb.trans hb', rfl, acts, hd, hτ.trans hd'⟩
  | case4 p s π _ t π' h hc =>
    subst hu
    obtain ⟨frames, outcome, again', σ', hb, ht, ⟨acts, hd, hd'⟩, -⟩ := becomes_transition hm hσ hπ he
    have hr : (u.took t).state = t.state := (resolves_transition (congrArg Prod.fst h)).replays
    rw [h] at ht hd
    cases outcome with
    | error e => cases ht
    | ok o =>
      cases ht
      rw [Frame.continuation_resume] at hc
      have hn : Scheduler.nextSlot (u.took (Frame.resume frames o)).state (Frame.residual frames) = .ok .done := by
        rw [hc]
        rfl
      obtain ⟨τ, hτ, hb'⟩ := becomes_finished u seq again' σ' hn
      exact ⟨_, τ, hb.trans hb', congrArg Except.ok hr, acts, hd, hτ.trans hd'⟩
  | case5 p s π _ t π' h q hc ih =>
    subst hu
    obtain ⟨frames, outcome, again', σ', hb, ht, ⟨acts, hd, hd'⟩, hev⟩ := becomes_transition hm hσ hπ he
    have hr : (u.took t).state = t.state := (resolves_transition (congrArg Prod.fst h)).replays
    have hπ' := regular_transition c p u.state hπ
    rw [h] at ht hd hev hπ'
    cases outcome with
    | error e => cases ht
    | ok o =>
      cases ht
      rw [Frame.continuation_resume] at hc
      rw [Frame.calls, hc] at hev
      have hn : Scheduler.nextSlot (u.took (Frame.resume frames o)).state (Frame.residual frames) =
          (q.isFinal (Frame.resume frames o).state).map fun final => if final then .done else q := by
        rw [hc, hr, Scheduler.nextSlot_some]
      by_cases hq : q.isFinal (Frame.resume frames o).state = .ok false
      · rw [hq] at hn
        have hn : Scheduler.nextSlot (u.took (Frame.resume frames o)).state (Frame.residual frames) = .ok q := hn
        have hb' := hb.trans (becomes_entered u seq again' σ' hn (Frame.isMark_residual hc))
        have hσ' : σ'.Admits (u.scope :: u.outer) := (hb hm).1.toScoped.open.admits_group
        obtain ⟨outcome, τ, hend, hres, more, hd₁, hd₂⟩ :=
          ih (u := { u.took (Frame.resume frames o) with nextSeq := u.nextSeq + 1 }) hr hq (hb' hm).1 hσ' hπ' hev
        refine ⟨outcome, τ, hb'.trans hend, hres, acts ++ more, ?_, ?_⟩
        · rw [hd₁, hd, List.append_assoc]
        · rw [hd₂, hd', List.append_assoc]
      · obtain ⟨outcome, τ, hb', hres, hτ, hw⟩ := becomes_over u seq again' σ' hn hr hq π'
        rw [hw]
        exact ⟨outcome, τ, hb.trans hb', hres, acts, hd, hτ.trans hd'⟩

/-! ### The whole construct -/

section

variable {kind : Control} (hk : kind = .conc ∨ kind = .either)

include hk

theorem validate_single (p : Program) : (control kind [p]).validate = p.validate := by
  rcases hk with rfl | rfl <;> simp only [validate, validateAll, checkArity] <;> cases p.validate <;> rfl

theorem isFinal_single (s : State) (p : Program) : (control kind [p]).isFinal s = p.isFinal s := by
  rcases hk with rfl | rfl <;> simp only [isFinal, allFinal, anyFinal] <;> rcases p.isFinal s with e | _ | _ <;> rfl

theorem started_single (c : Setting) (hp : p.isMark = false) (hf : p.isFinal s = .ok false) (σ : World) :
    (control kind [p]).started c s σ =
      entered c { kind, slots := [], state := s, scope := σ.nextScope, outer := [], nextSeq := 1 } p 0 false
        σ.openScope := by
  have hs : p.startsFinal s = false := by rw [startsFinal, hf]
  have hd := isDone_of_isMark hp
  simp only [started, dispatch_construct c s hk, finalityFailure?, hf, markFinal, List.map_cons, List.map_nil, hs,
    Scheduler.slotsFinished_single, dispatchSlots, hp, hd, Bool.false_eq_true, if_false]
  rfl

/-- One transition of the construct is the run of its branch. -/
theorem transition_single (c : Setting) (hp : p.isMark = false) (hf : p.isFinal s = .ok false) :
    ∃ outcome : Except Failure Outcome,
      ((control kind [p]).transition c s c.initial).1 = outcome.map (Frame.resume []) ∧
      outcome.map Outcome.state = (p.drive c s c.initial).result.mapError RunFailure.failure ∧
      ((control kind [p]).transition c s c.initial).2.dispatched = (p.drive c s c.initial).world.dispatched := by
  have hr : c.initial.Regular := World.regular_initial c.budget
  obtain ⟨-, hfo⟩ := follows_started c (control kind [p]) s hr c.budget (.inl rfl)
  change Follows _ _ _ ((control kind [p]).started c s c.initial) at hfo
  have hfs := follows_settle (c := c) hfo
  have hfr : ((control kind [p]).dispatch c s [] c.initial).frames = [] := by
    rw [dispatch_construct c s hk]
    split
    · rfl
    · split <;> rfl
  have hst := started_single hk c hp hf c.initial
  rw [hst] at hfo hfs
  have hm : Solitary _ := ⟨hfo.right, hfo.alone⟩
  have hσ : c.initial.openScope.Admits [0] :=
    World.Admits.openScope ⟨List.forall_mem_nil _, fun i hi => by cases hi⟩
  obtain ⟨outcome, τ, hb, hres, acts, hd, hd'⟩ := becomes_drive rfl hf hm hσ hr (.inl rfl)
  rw [(hb hm).2, settleAlone_of_settled rfl] at hfs
  refine ⟨outcome, ?_, hres, ?_⟩
  · rw [result_transition, hst, hfs.outcome_eq, hfr]
    rfl
  · rw [world_transition, hst, hfs.dispatched, hd']
    exact hd.symm

theorem drive_single (c : Setting) (s : State) (hp : p.isMark = false) :
    ((control kind [p]).drive c s c.initial).Agrees (p.drive c s c.initial) := by
  have hfin := isFinal_single hk s p
  cases hf : p.isFinal s with
  | error e =>
    rw [drive_eq, hfin, drive_eq, hf]
    exact ⟨rfl, rfl⟩
  | ok final =>
    cases final with
    | true =>
      rw [drive_eq, hfin, drive_eq, hf]
      exact ⟨rfl, rfl⟩
    | false =>
      obtain ⟨outcome, ht, hr, hd⟩ := transition_single hk c hp hf
      have hh := congrArg (fun acts => (acts.filter (·.action.recorded)).map (·.record)) hd
      simp only [← World.history_eq] at hh
      rw [drive_eq c (control kind [p]), hfin, hf]
      simp only [ht]
      cases outcome with
      | error e => exact ⟨hr, hh⟩
      | ok o => exact ⟨hr, hh⟩

theorem run_single (c : Setting) (p : Program) (s : State) : ((control kind [p]).run c s).Agrees (p.run c s) := by
  have hv := validate_single hk p
  cases hp : p.validate with
  | error violation =>
    rw [run, hv, run, hp]
    exact ⟨rfl, rfl⟩
  | ok _ =>
    have hn : p.isMark = false := by
      cases p with
      | done => cases hp
      | blocked => cases hp
      | _ => rfl
    rw [run_of_validate c s (hv.trans hp), run_of_validate c s hp]
    exact drive_single hk c s hn

end

/-- A construct with one branch ends just as the branch does by itself, whatever the branch, the state and the actions:
with the same state or the same failure, and with the same history. -/
theorem single_branch_transparent (c : Setting) (p : Program) (s : State) :
    ((control .conc [p]).run c s).Agrees (p.run c s) ∧ ((control .either [p]).run c s).Agrees (p.run c s) :=
  ⟨run_single (.inl rfl) c p s, run_single (.inr rfl) c p s⟩

end Program

end Agenda
