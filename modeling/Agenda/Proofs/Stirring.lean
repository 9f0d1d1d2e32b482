import Mathlib
import Agenda.Proofs.Moves

/-!
# Stirring a work

Timers that ring, postponed executions that are taken up and new looks do not make anything happen. They change timers
of executions that have started, the order in which flights are looked at, and where constructs are in looking at them.
-/

namespace Agenda

set_option autoImplicit false

namespace Work

mutual
/-- What holds of a construct when it holds of all that is under way in it holds of every work. -/
@[elab_as_elim]
theorem induction {P : Work → Prop} (settled : ∀ outcome, P (.settled outcome)) (acting : ∀ e, P (.acting e))
    (group : ∀ s : Scheduler Work, (∀ f ∈ s.flights, P f.work) → P (.group s)) : ∀ w : Work, P w
  | .settled outcome => settled outcome
  | .acting e => acting e
  | .group s => group s fun f hf => (List.mem_append.mp hf).elim
      (inductionFlights settled acting group s.queue f) (inductionFlights settled acting group s.waiting f)

theorem inductionFlights {P : Work → Prop} (settled : ∀ outcome, P (.settled outcome)) (acting : ∀ e, P (.acting e))
    (group : ∀ s : Scheduler Work, (∀ f ∈ s.flights, P f.work) → P (.group s)) :
    ∀ fs : List (Flight Work), ∀ f ∈ fs, P f.work
  | [], _, hf => nomatch hf
  | g :: rest, f, hf => (List.mem_cons.mp hf).elim (fun h => h ▸ induction settled acting group g.work)
      (inductionFlights settled acting group rest f)
end

theorem takeUpFlights_eq (fs : List (Flight Work)) :
    (takeUpFlights fs).map (·.2) = fs.map fun f => { f with work := f.work.takeUp } := by
  induction fs with
  | nil => rfl
  | cons f rest ih => simp [takeUpFlights, ih]

theorem ringFlights_eq (time : Nat) (fs : List (Flight Work)) :
    (ringFlights time fs).map (·.2) = fs.map fun f => { f with work := f.work.ring time } := by
  induction fs with
  | nil => rfl
  | cons f rest ih => simp [ringFlights, ih]

theorem byTicket_append_ticketless_perm (fs : List (Option Nat × Flight Work)) :
    (byTicket fs ++ ticketless fs).Perm (fs.map (·.2)) := by
  have hs := List.mergeSort_perm (fs.filter (·.1.isSome)) fun a b => decide (a.1.getD 0 ≤ b.1.getD 0)
  have hp := ((hs.append_right _).trans (List.filter_append_perm (·.1.isSome) fs)).map (·.2)
  rwa [List.map_append] at hp

/-- A flight together with the work that it has later. -/
abbrev Renewal := Flight Work × Work

abbrev Renewal.flight (x : Renewal) : Flight Work := { x.1 with work := x.2 }

/-- The second work is the first one with other timers, other orders of flights and other attention. -/
inductive Stirs : Work → Work → Prop
  | settled (outcome : Except Failure Outcome) : Stirs (.settled outcome) (.settled outcome)
  | acting (e : Execution) (timer : Timer) (postponed : Option Nat) : (timer = .idle ↔ e.timer = .idle) →
      Stirs (.acting e) (.acting { e with timer, postponed })
  | group {s : Scheduler Work} {queue waiting : List (Flight Work)} {attention : Attention} (fs : List Renewal) :
      fs.map (·.1) = s.flights → (queue ++ waiting).Perm (fs.map (·.flight)) → (∀ x ∈ fs, Stirs x.1.work x.2) →
      Stirs (.group s) (.group { s with queue, waiting, attention })

section

variable {s : Scheduler Work} {queue waiting : List (Flight Work)} {fs : List Renewal}

theorem exists_of_mem_stirred (he : fs.map (·.1) = s.flights) (hp : (queue ++ waiting).Perm (fs.map (·.flight)))
    {f : Flight Work} (hf : f ∈ queue ++ waiting) : ∃ x ∈ fs, x.1 ∈ s.flights ∧ f = x.flight := by
  obtain ⟨x, hx, rfl⟩ := List.mem_map.mp (hp.mem_iff.mp hf)
  exact ⟨x, hx, he ▸ List.mem_map_of_mem hx, rfl⟩

theorem map_stirred_perm {β : Type} (F : Flight Work → β) (he : fs.map (·.1) = s.flights)
    (hp : (queue ++ waiting).Perm (fs.map (·.flight))) (hF : ∀ x ∈ fs, F x.flight = F x.1) :
    ((queue ++ waiting).map F).Perm (s.flights.map F) := by
  have hm := hp.map F
  have hs : (fs.map (·.flight)).map F = s.flights.map F := by
    rw [← he, List.map_map, List.map_map]
    exact List.map_congr_left hF
  rwa [hs] at hm

end

theorem map_renewal (g : Flight Work → Work) (fs : List (Flight Work)) :
    (fs.map fun f => ((f, g f) : Renewal)).map (·.1) = fs := by
  rw [List.map_map]
  exact List.map_id fs

theorem stirs_attention (s : Scheduler Work) (h : ∀ f ∈ s.flights, Stirs f.work f.work) (attention : Attention) :
    Stirs (.group s) (.group { s with attention }) := by
  refine .group (s.flights.map fun f => (f, f.work)) (map_renewal _ _) ?_ ?_
  · rw [List.map_map]
    exact .of_eq (List.map_id s.flights).symm
  · intro x hx
    obtain ⟨f, hf, rfl⟩ := List.mem_map.mp hx
    exact h f hf

theorem stirs_refl (w : Work) : Stirs w w := by
  induction w using induction with
  | settled outcome => exact .settled outcome
  | acting e => exact .acting e e.timer e.postponed .rfl
  | group s ih => exact stirs_attention s ih s.attention

theorem stirs_look (s : Scheduler Work) (attention : Attention) : Stirs (.group s) (.group { s with attention }) :=
  stirs_attention s (fun f _ => stirs_refl f.work) attention

theorem stirs_wake (w : Work) : Stirs w w.wake := by
  cases w with
  | settled outcome => exact .settled outcome
  | acting e => exact .acting e e.timer e.postponed .rfl
  | group s => exact stirs_look s .fresh

theorem stirs_takeUp (w : Work) : Stirs w w.takeUp := by
  induction w using induction with
  | settled outcome => exact .settled outcome
  | acting e => exact .acting e e.timer none .rfl
  | group s ih =>
    have hp := byTicket_append_ticketless_perm (takeUpFlights s.waiting)
    rw [takeUpFlights_eq] at hp
    refine .group (s.flights.map fun f => (f, f.work.takeUp)) (map_renewal _ _) ?_ ?_
    · rw [takeUpFlights_eq, List.append_assoc, List.map_map, Scheduler.flights, List.map_append]
      exact (((List.reverse_perm _).append_right _).trans hp).append_left _
    · intro x hx
      obtain ⟨f, hf, rfl⟩ := List.mem_map.mp hx
      exact ih f hf

theorem stirs_ring (w : Work) (time : Nat) : Stirs w (w.ring time) := by
  induction w using induction with
  | settled outcome => exact .settled outcome
  | acting e =>
    simp only [ring]
    split
    · rename_i ht
      split
      · exact .acting e .rung e.postponed (by simp [ht])
      · exact .acting e e.timer e.postponed .rfl
    · exact .acting e e.timer e.postponed .rfl
  | group s ih =>
    have hp := byTicket_append_ticketless_perm (ringFlights time s.waiting)
    rw [ringFlights_eq] at hp
    -- only the flights that wait hear their timers
    refine .group (s.queue.map (fun f => (f, f.work)) ++ s.waiting.map fun f => (f, f.work.ring time)) ?_ ?_ ?_
    · rw [List.map_append, map_renewal, map_renewal]
      rfl
    · rw [List.map_append, List.map_map, List.map_map, List.append_assoc]
      exact (List.Perm.of_eq (List.map_id s.queue).symm).append hp
    · intro x hx
      rcases List.mem_append.mp hx with hx | hx
      · obtain ⟨f, -, rfl⟩ := List.mem_map.mp hx
        exact stirs_refl f.work
      · obtain ⟨f, hf, rfl⟩ := List.mem_map.mp hx
        exact ih f (List.mem_append_right _ hf)

theorem receive_cases {s : Scheduler Work} {f : Flight Work} {rest : List (Flight Work)} (hq : s.queue = f :: rest) :
    (∃ outcome, f.work = .settled outcome ∧ s.receive f rest =
      { s with
        queue := rest
        batch := s.batch ++ [⟨f.slot, f.seq, f.frames, outcome⟩]
        attention := s.attention.renewed }) ∨
      Stirs (.group s) (.group (s.receive f rest)) := by
  have hs : s.flights = f :: (rest ++ s.waiting) := by
    rw [Scheduler.flights, hq]
    rfl
  unfold Scheduler.receive
  split
  · rename_i outcome ho
    exact .inl ⟨outcome, ho, rfl⟩
  · right
    split
    · refine .group ((f, f.work.wake) :: (rest ++ s.waiting).map fun g => (g, g.work)) ?_ ?_ ?_
      · rw [List.map_cons, map_renewal, hs]
      · rw [List.map_cons, List.map_map, List.append_assoc]
        apply List.perm_middle.trans
        exact .of_eq (congrArg _ (List.map_id _).symm)
      · intro x hx
        rcases List.mem_cons.mp hx with rfl | hx
        · exact stirs_wake f.work
        · obtain ⟨g, -, rfl⟩ := List.mem_map.mp hx
          exact stirs_refl g.work
    · refine .group (s.flights.map fun g => (g, g.work)) (map_renewal _ _) ?_ ?_
      · rw [List.map_map, hs]
        refine List.Perm.trans ?_ (.of_eq (List.map_id _).symm)
        rw [← List.append_assoc]
        exact List.perm_append_comm
      · intro x hx
        obtain ⟨g, -, rfl⟩ := List.mem_map.mp hx
        exact stirs_refl g.work

end Work

end Agenda
