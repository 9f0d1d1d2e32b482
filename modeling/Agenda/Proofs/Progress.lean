import Mathlib
import Agenda.Proofs.Alone

/-!
# Nothing stands still

A work that can neither move nor asks for another look waits for a timer, so the clock can always go on until the work
is settled. Two things have to be kept for that. The flights that a construct lets wait, and those inside of them, all
have a timer or are postponed, and a construct that rests without asking for anything has such flights. And nothing is
postponed any more when the allowance is there again.
-/

namespace Agenda

set_option autoImplicit false

namespace Work

/-- A work that can only wait, for its timers or until it is taken up. -/
inductive Dormant : Work → Prop
  | acting {e : Execution} : e.isStill = true → Dormant (.acting e)
  | group {s : Scheduler Work} : s.attention.isResting = true → s.attention.again = false → s.queue = [] →
      s.waiting ≠ [] → (∀ f ∈ s.waiting, Dormant f.work) → Dormant (.group s)

/-- A work in which flights only wait while they are dormant, and in which every construct that rests either asks for
another look or has such flights and no others. -/
inductive Watchful : Work → Prop
  | plain {w : Work} : w.isPlain = true → Watchful w
  | group {s : Scheduler Work} :
      (s.attention.isResting = true → s.attention.again = false → s.queue = [] ∧ s.waiting ≠ []) →
      (∀ f ∈ s.waiting, f.work.Dormant) → (∀ f ∈ s.queue, Watchful f.work) → Watchful (.group s)

inductive Unpostponed : Work → Prop
  | settled (outcome : Except Failure Outcome) : Unpostponed (.settled outcome)
  | acting {e : Execution} : e.postponed = none → Unpostponed (.acting e)
  | group {s : Scheduler Work} : (∀ f ∈ s.flights, Unpostponed f.work) → Unpostponed (.group s)

variable {c : Setting} {w w' : Work} {σ τ : World} {s : Scheduler Work}

theorem Watchful.inv (h : Watchful (.group s)) :
    (s.attention.isResting = true → s.attention.again = false → s.queue = [] ∧ s.waiting ≠ []) ∧
      (∀ f ∈ s.waiting, f.work.Dormant) ∧ ∀ f ∈ s.queue, f.work.Watchful := by
  cases h with
  | plain h => cases h
  | group hr hw hq => exact ⟨hr, hw, hq⟩

theorem Unpostponed.inv (h : Unpostponed (.group s)) : ∀ f ∈ s.flights, f.work.Unpostponed := by
  cases h with
  | group hf => exact hf

theorem Dormant.watchful (h : w.Dormant) : w.Watchful := by
  cases h with
  | acting _ => exact .plain rfl
  | group _ _ hq hn hw =>
    refine .group (fun _ _ => ⟨hq, hn⟩) hw ?_
    rw [hq]
    exact List.forall_mem_nil _

theorem Watchful.dormant (h : w.Watchful) (hs : w.isStill = true) (ha : w.asks = false) :
    (∃ outcome, w = .settled outcome) ∨ w.Dormant := by
  cases w with
  | settled outcome => exact .inl ⟨outcome, rfl⟩
  | acting e => exact .inr (.acting hs)
  | group s =>
    obtain ⟨hr, hw, -⟩ := h.inv
    have hs : s.attention.isResting = true := hs
    have ha : s.attention.again = false := by
      rw [asks, hs, Bool.true_and] at ha
      exact ha
    obtain ⟨hq, hn⟩ := hr hs ha
    exact .inr (.group hs ha hq hn hw)

/-! ### Tickets -/

section

variable {fs : List (Flight Work)} {k : Flight Work → Option Nat} {F : Flight Work → Flight Work} {f : Flight Work}

theorem mem_byTicket_map (h : f ∈ byTicket (fs.map fun g => (k g, F g))) : ∃ g ∈ fs, f = F g := by
  rw [byTicket_map fs k F] at h
  obtain ⟨g, hg, rfl⟩ := List.mem_map.mp h
  exact ⟨g, (List.mem_filter.mp (List.mem_mergeSort.mp hg)).1, rfl⟩

theorem mem_ticketless_map (h : f ∈ ticketless (fs.map fun g => (k g, F g))) : ∃ g ∈ fs, k g = none ∧ f = F g := by
  rw [ticketless_map fs k F] at h
  obtain ⟨g, hg, rfl⟩ := List.mem_map.mp h
  obtain ⟨hg, hk⟩ := List.mem_filter.mp hg
  rw [Bool.not_eq_true', Option.isSome_eq_false_iff, Option.isNone_iff_eq_none] at hk
  exact ⟨g, hg, hk, rfl⟩

end

theorem lastPostponedOfFlights_eq_none {fs : List (Flight Work)} (h : lastPostponedOfFlights fs = none) :
    ∀ f ∈ fs, f.work.lastPostponed = none := by
  induction fs with
  | nil => exact List.forall_mem_nil _
  | cons f rest ih =>
    obtain ⟨hf, hr⟩ := Option.merge_eq_none_iff.mp h
    exact List.forall_mem_cons.mpr ⟨hf, ih hr⟩

theorem lt_of_dueTicketOfFlights {time : Nat} {fs : List (Flight Work)}
    (ih : ∀ f ∈ fs, f.work.dueTicket time = none → ∀ due, f.work.nextDue = some due → time < due)
    (h : dueTicketOfFlights time fs = none) : ∀ due, nextDueOfFlights fs = some due → time < due := by
  induction fs with
  | nil => rintro due ⟨⟩
  | cons f rest ihf =>
    obtain ⟨hf, hr⟩ := Option.merge_eq_none_iff.mp h
    obtain ⟨ihf₀, ihr⟩ := List.forall_mem_cons.mp ih
    intro due hd
    rcases merge_min_eq_some hd with hd | hd
    · exact ihf₀ hf due hd
    · exact ihf ihr hr due hd

/-- What has no timer that is due at a time has only later ones. -/
theorem lt_of_dueTicket {time : Nat} (h : w.dueTicket time = none) : ∀ due, w.nextDue = some due → time < due := by
  induction w using induction with
  | settled outcome => rintro due ⟨⟩
  | acting e =>
    simp only [dueTicket, nextDue] at h ⊢
    split at h
    · split at h
      · cases h
      · rintro _ ⟨⟩
        omega
    · rintro due ⟨⟩
  | group s ih => exact lt_of_dueTicketOfFlights (fun f hf => ih f (List.mem_append_right _ hf)) h

theorem ring_of_dueTicket {time : Nat} (h : w.dueTicket time = none) : w.ring time = w :=
  (ring_of_lt_nextDue (lt_of_dueTicket h)).2

/-! ### Stirring -/

theorem Watchful.ring (h : w.Watchful) (time : Nat) : (w.ring time).Watchful := by
  induction w using induction with
  | settled outcome => exact .plain rfl
  | acting e =>
    simp only [Work.ring]
    split
    · split <;> exact .plain rfl
    · exact .plain rfl
  | group s ih =>
    cases hd : (Work.group s).dueTicket time with
    | none =>
      rw [ring_of_dueTicket hd]
      exact h
    | some ticket =>
      obtain ⟨-, hw, hq⟩ := h.inv
      have hd : dueTicketOfFlights time s.waiting = some ticket := hd
      simp only [Work.ring, hd, Option.isSome_some, if_true, ringFlights_eq_map]
      refine .group (by rintro ⟨⟩) ?_ ?_
      · intro f hf
        obtain ⟨g, hg, ht, rfl⟩ := mem_ticketless_map hf
        rw [ring_of_dueTicket ht]
        exact hw g hg
      · intro f hf
        rcases List.mem_append.mp hf with hf | hf
        · exact hq f hf
        · obtain ⟨g, hg, rfl⟩ := mem_byTicket_map hf
          exact ih g (List.mem_append_right _ hg) (hw g hg).watchful

theorem Dormant.takeUp_eq (h : w.Dormant) (hl : w.lastPostponed = none) : w.takeUp = w := by
  induction h with
  | @acting e _ =>
    have hl : e.postponed = none := hl
    simp only [takeUp, ← hl]
  | @group s hr ha hq _ _ ih =>
    have hl : lastPostponedOfFlights s.waiting = none := hl
    have hw : takeUpFlights s.waiting = s.waiting.map fun f => (none, f) := by
      rw [takeUpFlights_eq_map]
      refine List.map_congr_left fun f hf => ?_
      have hn := lastPostponedOfFlights_eq_none hl f hf
      rw [hn, ih f hf hn]
    have hn : takeUpFlights s.queue = [] := by
      rw [hq]
      rfl
    simp only [takeUp, hw, hn, byTicket_map_none, ticketless_map_none, hr, ha, hl, List.map_nil, List.reverse_nil,
      List.append_nil, Option.isSome_none, Bool.or_self, Bool.and_false, Bool.false_eq_true, if_false]
    rw [← hq]

theorem Watchful.takeUp (h : w.Watchful) : w.takeUp.Watchful := by
  induction w using induction with
  | settled outcome => exact .plain rfl
  | acting e => exact .plain rfl
  | group s ih =>
    obtain ⟨hr, hw, hq⟩ := h.inv
    by_cases hd : s.attention.isResting = true ∧ s.attention.again = false ∧ lastPostponedOfFlights s.waiting = none
    · -- it goes on waiting as it did
      obtain ⟨hs, ha, hl⟩ := hd
      obtain ⟨hq, hn⟩ := hr hs ha
      rw [(Dormant.group hs ha hq hn hw).takeUp_eq hl]
      exact h
    · simp only [Work.takeUp, takeUpFlights_eq_map]
      refine .group ?_ ?_ ?_
      · intro hs ha
        split at hs
        · cases hs
        · rename_i hn
          rw [if_neg hn] at ha
          refine absurd ⟨hs, ha, ?_⟩ hd
          rw [hs, ha, Bool.true_and, Bool.false_or, Bool.not_eq_true, Option.isSome_eq_false_iff,
            Option.isNone_iff_eq_none] at hn
          exact hn
      · intro f hf
        obtain ⟨g, hg, hl, rfl⟩ := mem_ticketless_map hf
        rw [(hw g hg).takeUp_eq hl]
        exact hw g hg
      · intro f hf
        rcases List.mem_append.mp hf with hf | hf
        · obtain ⟨x, hx, rfl⟩ := List.mem_map.mp hf
          obtain ⟨g, hg, rfl⟩ := List.mem_map.mp hx
          exact ih g (List.mem_append_left _ hg) (hq g hg)
        · obtain ⟨g, hg, rfl⟩ := mem_byTicket_map (List.mem_reverse.mp hf)
          exact ih g (List.mem_append_right _ hg) (hw g hg).watchful

theorem Watchful.wake (h : w.Watchful) : w.wake.Watchful := by
  cases w with
  | settled outcome => exact h
  | acting e => exact h
  | group s =>
    obtain ⟨-, hw, hq⟩ := h.inv
    exact .group (by rintro ⟨⟩) hw hq

theorem unpostponed_takeUp (w : Work) : w.takeUp.Unpostponed := by
  induction w using induction with
  | settled outcome => exact .settled outcome
  | acting e => exact .acting rfl
  | group s ih =>
    simp only [takeUp, takeUpFlights_eq_map]
    refine .group ?_
    intro f hf
    rcases List.mem_append.mp hf with hf | hf
    · rcases List.mem_append.mp hf with hf | hf
      · obtain ⟨x, hx, rfl⟩ := List.mem_map.mp hf
        obtain ⟨g, hg, rfl⟩ := List.mem_map.mp hx
        exact ih g (List.mem_append_left _ hg)
      · obtain ⟨g, hg, rfl⟩ := mem_byTicket_map (List.mem_reverse.mp hf)
        exact ih g (List.mem_append_right _ hg)
    · obtain ⟨g, hg, -, rfl⟩ := mem_ticketless_map hf
      exact ih g (List.mem_append_right _ hg)

theorem Unpostponed.ring (h : w.Unpostponed) (time : Nat) : (w.ring time).Unpostponed := by
  induction w using induction with
  | settled outcome => exact h
  | acting e =>
    cases h with
    | acting hp =>
      simp only [Work.ring]
      split
      · split <;> exact .acting hp
      · exact .acting hp
  | group s ih =>
    have hf := h.inv
    simp only [Work.ring, ringFlights_eq_map]
    refine .group ?_
    intro f hm
    rcases List.mem_append.mp hm with hm | hm
    · rcases List.mem_append.mp hm with hm | hm
      · exact hf f (List.mem_append_left _ hm)
      · obtain ⟨g, hg, rfl⟩ := mem_byTicket_map hm
        exact ih g (List.mem_append_right _ hg) (hf g (List.mem_append_right _ hg))
    · obtain ⟨g, hg, -, rfl⟩ := mem_ticketless_map hm
      exact ih g (List.mem_append_right _ hg) (hf g (List.mem_append_right _ hg))

theorem Unpostponed.wake (h : w.Unpostponed) : w.wake.Unpostponed := by
  cases w with
  | settled outcome => exact h
  | acting e => exact h
  | group s => exact .group h.inv

theorem Dormant.nextDue_ne_none (h : w.Dormant) (hu : w.Unpostponed) : w.nextDue ≠ none := by
  induction h with
  | @acting e hs =>
    cases hu with
    | acting hp =>
      simp only [Execution.isStill, hp, Option.isSome_none, Bool.false_or] at hs
      split at hs
      · rename_i latency ticket due _ ht
        simp [nextDue, ht]
      · cases hs
  | @group s _ _ _ hn _ ih =>
    obtain ⟨f, rest, he⟩ := List.exists_cons_of_ne_nil hn
    have hf : f ∈ s.waiting := by
      rw [he]
      exact List.mem_cons_self
    intro hd
    simp only [nextDue, he] at hd
    exact ih f hf (hu.inv f (List.mem_append_right _ hf)) (Option.merge_eq_none_iff.mp hd).1

end Work

/-! ### Launches and moves -/

theorem Work.unpostponed_perform (scopes : List Nat) (updates : List Update) (trace : List BoundAction) (s : State)
    (bound : BoundAction) (σ : World) : (perform scopes updates trace s bound σ).1.Unpostponed := by
  obtain ⟨e, he⟩ | ⟨-, he⟩ := perform_cases scopes updates trace s bound σ
  · rw [he]
    exact .settled _
  · rw [he]
    exact .acting rfl

theorem Program.watchful_cases (c : Setting) (s : State) :
    DispatchCases c s (fun _ _ _ l => l.work.Watchful ∧ l.work.Unpostponed)
      (fun _ _ _ _ _ _ r => ∀ f ∈ r.flights, f.work.Watchful ∧ f.work.Unpostponed) where
  failed _ _ _ _ _ := ⟨.plain rfl, .settled _⟩
  finished _ _ _ _ := ⟨.plain rfl, .settled _⟩
  call _ _ scopes σ bound _ :=
    ⟨.plain (Work.isPlain_perform scopes [] [] s bound σ), Work.unpostponed_perform scopes [] [] s bound σ⟩
  plan _ _ scopes σ plan _ := by
    refine ⟨.plain (Work.isPlain_performAll scopes s σ plan.trace), ?_⟩
    obtain ⟨-, he⟩ | ⟨bound, rest, -, he⟩ := Work.performAll_cases scopes s σ plan.trace
    · rw [he]
      exact .settled _
    · rw [he]
      exact Work.unpostponed_perform scopes [] rest s bound σ
  enter _ _ _ _ _ _ h := h
  skip _ _ _ _ _ _ h := h
  before _ _ _ _ _ _ h := h
  bind _ _ _ _ _ h := h
  decided _ _ _ _ _ _ _ _ :=
    ⟨.group (by rintro ⟨⟩) (List.forall_mem_nil _) (List.forall_mem_nil _), .group (List.forall_mem_nil _)⟩
  group _ _ _ _ r _ _ _ _ h := by
    refine ⟨.group (by rintro ⟨⟩) (List.forall_mem_nil _) fun f hf => (h f hf).1, .group ?_⟩
    intro f hf
    rw [Scheduler.flights, List.append_nil] at hf
    exact (h f hf).2
  nil _ _ _ _ _ := List.forall_mem_nil _
  done _ _ _ _ _ _ _ _ _ h := h
  mark _ _ _ _ _ _ _ _ _ _ h := h
  start _ _ _ _ _ _ _ _ _ _ _ hl h := List.forall_mem_cons.mpr ⟨hl, h⟩

namespace Attention

theorem isResting_passOn (request : Bool) (a : Attention) : (a.passOn request).isResting = a.isResting := by
  cases a <;> rfl

theorem isResting_looked (asks : Bool) (a : Attention) : (a.looked asks).isResting = a.isResting := by
  cases a <;> rfl

end Attention

namespace Work

variable {c : Setting} {w w' : Work} {σ τ : World}

theorem Moves.watchful (h : Moves c w σ w' τ) (hw : w.Watchful) : w'.Watchful := by
  induction h with
  | act h => exact .plain (Execution.isPlain_advance h)
  | finish _ _ => exact .plain rfl
  | starve _ _ _ => exact .plain rfl
  | @rest s σ short hs _ hf =>
    obtain ⟨-, hd, hq⟩ := hw.inv
    refine .group ?_ hd hq
    intro _ ha
    -- it asks for nothing, so its sweep was not cut short
    obtain ⟨-, rfl⟩ := Bool.or_eq_false_iff.mp ha
    have hn := hs.queue rfl
    rw [Scheduler.flights, hn, List.nil_append] at hf
    exact ⟨hn, hf⟩
  | fail _ _ _ => exact .plain rfl
  | decide _ _ _ _ => exact .plain rfl
  | @go s t σ _ _ _ ht _ =>
    obtain ⟨-, hd, hq⟩ := hw.inv
    obtain ⟨-, he, hwt, -⟩ := Scheduler.foldBatch_spec s ht
    have hr := (Program.watchful_cases c t.state).round t.slots (t.scope :: t.outer) (fun _ => false) 0 t.nextSeq σ
    refine .group (by rintro ⟨⟩) (by rwa [hwt]) ?_
    intro f hf
    rcases List.mem_append.mp hf with hf | hf
    · exact hq f (he ▸ hf)
    · exact (hr f hf).1
  | @follow s f rest σ τ w hs _ ih =>
    obtain ⟨-, hd, hq⟩ := hw.inv
    rw [hs.queue] at hq
    obtain ⟨hf, hrest⟩ := List.forall_mem_cons.mp hq
    refine .group ?_ hd (List.forall_mem_cons.mpr ⟨ih hf, hrest⟩)
    intro hn
    rw [Scheduler.follow, Attention.isResting_passOn, hs.looking] at hn
    cases hn
  | @receive s f rest σ hs hst =>
    obtain ⟨-, hd, hq⟩ := hw.inv
    rw [hs.queue] at hq
    obtain ⟨hf, hrest⟩ := List.forall_mem_cons.mp hq
    have hl : ∀ asks, (s.attention.looked asks).isResting ≠ true := by
      intro asks hn
      rw [Attention.isResting_looked, hs.looking] at hn
      cases hn
    unfold Scheduler.receive
    split
    · exact .group (by rintro ⟨⟩) hd hrest
    · rename_i hset
      split
      · refine .group (fun hn => absurd hn (hl true)) hd ?_
        exact List.forall_mem_append.mpr ⟨hrest, List.forall_mem_singleton.mpr hf.wake⟩
      · rename_i ha
        refine .group (fun hn => absurd hn (hl false)) ?_ hrest
        refine List.forall_mem_append.mpr ⟨hd, List.forall_mem_singleton.mpr ?_⟩
        -- it is neither settled nor asks for another look
        obtain ⟨outcome, ho⟩ | hz := hf.dormant hst (Bool.not_eq_true _ ▸ ha)
        · exact absurd ho (hset outcome)
        · exact hz

theorem unpostponed_complete (e : Execution) (σ : World) : (e.complete σ).1.Unpostponed := by
  obtain ⟨message, he⟩ | ⟨result, -, he⟩ | ⟨bound, trace, -, he⟩ := e.complete_cases σ
  · rw [he]
    exact .settled _
  · rw [he]
    exact .settled _
  · rw [he]
    exact unpostponed_perform e.scopes _ trace e.after bound _

theorem Moves.unpostponed (h : Moves c w σ w' τ) (ha : σ.allowance ≠ 0) (hw : w.Unpostponed) : w'.Unpostponed := by
  induction h with
  | @act e σ τ w h =>
    obtain ⟨-, he⟩ | ⟨-, ⟨-, he⟩ | ⟨-, he⟩ | ⟨hz, he⟩ | ⟨latency, -, he⟩⟩ := Execution.advance_cases h
    · cases he
      cases hw with
      | acting hp => exact .acting hp
    · have hc := unpostponed_complete e σ
      rwa [← he] at hc
    · have hc := unpostponed_complete e σ.spend
      rwa [← he] at hc
    · cases he
      exact absurd hz ha
    · cases he
      cases hw with
      | acting hp => exact .acting hp
  | finish _ _ => exact .settled _
  | starve _ _ _ => exact .settled _
  | rest _ _ _ => exact .group hw.inv
  | fail _ _ _ => exact .settled _
  | decide _ _ _ _ => exact .settled _
  | @go s t σ _ _ _ ht _ =>
    have hr := (Program.watchful_cases c t.state).round t.slots (t.scope :: t.outer) (fun _ => false) 0 t.nextSeq σ
    refine .group ?_
    intro f hf
    rcases Scheduler.mem_flights_dispatchLive hf with hf | hf
    · rw [(Scheduler.flights_foldBatch ht).1] at hf
      exact hw.inv f hf
    · exact (hr f hf).2
  | @follow s f rest σ τ w hs _ ih =>
    refine .group ?_
    intro g hg
    rcases hs.mem_flights_follow hg with rfl | hg
    · exact ih ha (hw.inv f hs.mem_flights)
    · exact hw.inv g hg
  | @receive s f rest σ hs _ =>
    have hf := hw.inv f hs.mem_flights
    have hrest : ∀ g ∈ rest ++ s.waiting, g.work.Unpostponed := fun g hg => hw.inv g (hs.mem_flights_of_mem_rest hg)
    obtain ⟨hq, hwt⟩ := List.forall_mem_append.mp hrest
    unfold Scheduler.receive
    split
    · exact .group hrest
    · split
      · refine .group (List.forall_mem_append.mpr ⟨?_, hwt⟩)
        exact List.forall_mem_append.mpr ⟨hq, List.forall_mem_singleton.mpr hf.wake⟩
      · refine .group (List.forall_mem_append.mpr ⟨hq, ?_⟩)
        exact List.forall_mem_append.mpr ⟨hwt, List.forall_mem_singleton.mpr hf⟩

end Work

namespace Machine

variable {c : Setting} {m m' : Machine}

/-- A machine whose main work waits for nothing that does not come. -/
structure Lively (m : Machine) : Prop where
  watchful : m.main.Watchful
  unpostponed : m.world.allowance ≠ 0 → m.main.Unpostponed

theorem Steps.lively (h : Steps c m m') (hm : m.Lively) : m'.Lively := by
  cases h with
  | @move main world h =>
    refine ⟨h.watchful hm.watchful, ?_⟩
    intro (ha : world.allowance ≠ 0)
    have hl := h.spends.allowance
    have hσ : m.world.allowance ≠ 0 := by omega
    exact h.unpostponed hσ (hm.unpostponed hσ)
  | takeUp _ _ => exact ⟨hm.watchful.takeUp, fun _ => Work.unpostponed_takeUp _⟩
  | wake _ ha _ => exact ⟨hm.watchful.wake, fun _ => (hm.unpostponed ha).wake⟩
  | detached hw _ _ => exact ⟨hm.watchful, fun _ => hm.unpostponed hw.rested⟩
  | ring hw _ => exact ⟨hm.watchful.ring _, fun _ => (hm.unpostponed hw.rested).ring _⟩

theorem Lively.progress (hm : m.Lively) (h : m.step c = none) : ∃ outcome, m.main = .settled outcome := by
  obtain ⟨hw, hn⟩ := waits_of_step_eq_none h
  obtain ho | hd := hm.watchful.dormant hw.still hw.quiet
  · exact ho
  · exact absurd (Option.merge_eq_none_iff.mp hn).1 (hd.nextDue_ne_none (hm.unpostponed hw.rested))

end Machine

/-- Every transition comes to its end, in whatever world it is dispatched. -/
theorem Program.settles_started (c : Setting) (p : Program) (s : State) (σ : World) :
    ∃ outcome, ((p.started c s σ).settle c).main = .settled outcome := by
  have hl := (watchful_cases c s).dispatch p [] σ
  exact (Machine.settle_progress (P := Machine.Lively) (fun _ _ _ hm hs => hs.lively hm)
    (fun _ hm hs => hm.progress hs) _ ⟨hl.1, fun _ => hl.2⟩).2

end Agenda
