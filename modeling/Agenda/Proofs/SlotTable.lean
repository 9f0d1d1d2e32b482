import Mathlib
import Agenda.Proofs.Launches
import Agenda.Proofs.Stirring

/-!
# The slot table

Every transition that a construct has under way, and every one that came to its end and is not folded yet, belongs to a
slot of its own, and that slot reads `blocked`. So a construct whose branches all are done has nothing under way.
-/

namespace Agenda

set_option autoImplicit false

namespace Scheduler

/-- The slots whose transitions are not folded yet. -/
def pendingSlots (s : Scheduler Work) : List Nat := s.flights.map (·.slot) ++ s.batch.map (·.slot)

/-- The slots are those of a table in which the ones that wait are marked. -/
structure Marks (slots : List Program) (pending : List Nat) : Prop where
  nodup : pending.Nodup
  blocked : ∀ i ∈ pending, slots[i]? = some .blocked

theorem Marks.perm {slots : List Program} {is js : List Nat} (h : Marks slots is) (hp : js.Perm is) : Marks slots js :=
  ⟨hp.nodup_iff.mpr h.nodup, fun i hi => h.blocked i (hp.mem_iff.mp hi)⟩

theorem Marks.set {slots : List Program} {i : Nat} {is : List Nat} (h : Marks slots (i :: is)) (p : Program) :
    Marks (slots.set i p) is := by
  obtain ⟨hi, hn⟩ := List.nodup_cons.mp h.nodup
  refine ⟨hn, ?_⟩
  intro j hj
  have hij : i ≠ j := by
    rintro rfl
    exact hi hj
  rw [List.getElem?_set_ne hij]
  exact h.blocked j (List.mem_cons_of_mem i hj)

theorem Marks.eq_nil {slots : List Program} {is : List Nat} (h : Marks slots is)
    (hd : slots.all Program.isDone = true) : is = [] := by
  cases is with
  | nil => rfl
  | cons i rest =>
    have hi := h.blocked i List.mem_cons_self
    have hm := List.all_eq_true.mp hd _ (List.mem_of_getElem? hi)
    cases hm

def Tabled (s : Scheduler Work) : Prop := Marks s.slots s.pendingSlots

theorem slotsFinished_of_ne_either {kind : Control} (h : kind ≠ .either) (slots : List Program) :
    slotsFinished kind slots = slots.all Program.isDone := if_neg h

theorem Tabled.nothing_pending {s : Scheduler Work} (h : s.Tabled) (hk : s.kind ≠ .either) (hf : s.isFinished = true) :
    s.flights = [] ∧ s.batch = [] := by
  rw [isFinished, slotsFinished_of_ne_either hk] at hf
  have hp := h.eq_nil hf
  simpa [pendingSlots] using hp

theorem marks_complete {s t : Scheduler Work} {c : Completion} {is : List Nat} (h : Marks s.slots (c.slot :: is))
    (ht : s.complete c = .ok t) : Marks t.slots is := by
  obtain ⟨o, next, -, -, rfl⟩ := complete_eq_ok ht
  exact h.set next

/-- A construct other than a race folds the first transition: its slot reads blocked, so not all can be done. -/
theorem foldAll_cons_eq_ok {s t : Scheduler Work} {c : Completion} {rest : List Completion} {is : List Nat}
    (hk : s.kind ≠ .either) (hm : Marks s.slots (c.slot :: is)) (h : s.foldAll (c :: rest) = .ok t) :
    ∃ u, s.complete c = .ok u ∧ u.kind ≠ .either ∧ Marks u.slots is ∧ u.foldAll rest = .ok t := by
  rw [foldAll] at h
  split at h
  · rename_i hf
    rw [isFinished, slotsFinished_of_ne_either hk] at hf
    cases hm.eq_nil hf
  · obtain ⟨u, hu, h⟩ := Except.exists_of_bind_eq_ok h
    refine ⟨u, hu, ?_, marks_complete hm hu, h⟩
    obtain ⟨o, next, -, -, rfl⟩ := complete_eq_ok hu
    exact hk

theorem marks_foldAll {s t : Scheduler Work} {cs : List Completion} {is : List Nat}
    (h : Marks s.slots (cs.map (·.slot) ++ is)) (ht : s.foldAll cs = .ok t) : Marks t.slots is := by
  induction cs generalizing s with
  | nil =>
    cases ht
    exact h
  | cons c rest ih =>
    rw [foldAll] at ht
    split at ht
    · cases ht
      have hn := (List.nodup_append.mp h.nodup).2.1
      exact ⟨hn, fun i hi => h.blocked i (List.mem_append_right _ hi)⟩
    · obtain ⟨u, hu, ht⟩ := Except.exists_of_bind_eq_ok ht
      exact ih (marks_complete h hu) ht

theorem Tabled.foldBatch {s t : Scheduler Work} (h : s.Tabled) (ht : s.foldBatch = .ok t) : t.Tabled := by
  obtain ⟨hf, hb⟩ := flights_foldBatch ht
  have hp := List.mergeSort_perm s.batch fun a b => decide (a.seq ≤ b.seq)
  have hm : Marks t.slots (s.flights.map (·.slot)) := by
    have hs : Marks s.slots ((s.batch.mergeSort fun a b => decide (a.seq ≤ b.seq)).map (·.slot) ++
        s.flights.map (·.slot)) := h.perm (((hp.map _).append_right _).trans List.perm_append_comm)
    exact marks_foldAll (s := { s with batch := [] }) hs ht
  rw [Tabled, pendingSlots, hf, hb, List.map_nil, List.append_nil]
  exact hm

end Scheduler

namespace Work

inductive Tabled : Work → Prop
  | plain {w : Work} : w.isPlain = true → Tabled w
  | group {s : Scheduler Work} : s.Tabled → (∀ f ∈ s.flights, Tabled f.work) → Tabled (.group s)

theorem Tabled.inv {s : Scheduler Work} (h : Tabled (.group s)) : s.Tabled ∧ ∀ f ∈ s.flights, f.work.Tabled := by
  cases h with
  | plain h => cases h
  | group hs hf => exact ⟨hs, hf⟩

theorem Stirs.tabled {w w' : Work} (h : Stirs w w') (hw : w.Tabled) : w'.Tabled := by
  induction h with
  | settled outcome => exact hw
  | acting e timer postponed _ => exact .plain rfl
  | group fs he hp _ ih =>
    obtain ⟨hs, hf⟩ := hw.inv
    refine .group (hs.perm ?_) ?_
    · exact (map_stirred_perm (·.slot) he hp fun _ _ => rfl).append_right _
    · intro f hm
      obtain ⟨x, hx, h₀, rfl⟩ := exists_of_mem_stirred he hp hm
      exact ih x hx (hf x.1 h₀)

end Work

/-- A round that marks the slots it dispatches, from a slot on, and leaves the marked ones as they are. -/
structure Round.Tabled (r : Round) (ps : List Program) (final : Program → Bool) (slot : Nat) : Prop where
  ordered : (r.flights.map (·.slot)).Pairwise (· < ·)
  started : ∀ f ∈ r.flights, ∃ i : Nat, f.slot = slot + i ∧ r.slots[i]? = some .blocked ∧ ps[i]? ≠ some .blocked
  kept : final .blocked = false → ∀ i : Nat, ps[i]? = some .blocked → r.slots[i]? = some .blocked
  works : ∀ f ∈ r.flights, f.work.Tabled

namespace Round

theorem Tabled.keep {r : Round} {ps : List Program} {final : Program → Bool} {slot : Nat}
    (h : r.Tabled ps final (slot + 1)) {p q : Program} (hq : final .blocked = false → p = .blocked → q = .blocked) :
    (r.keep q).Tabled (p :: ps) final slot := by
  refine ⟨h.ordered, ?_, ?_, h.works⟩
  · intro f hf
    obtain ⟨i, hi, hb, hn⟩ := h.started f hf
    exact ⟨i + 1, by omega, hb, hn⟩
  · intro hb i hi
    cases i with
    | zero => exact congrArg some (hq hb (Option.some.inj hi))
    | succ i => exact h.kept hb i hi

theorem Tabled.start {r : Round} {ps : List Program} {final : Program → Bool} {slot : Nat}
    (h : r.Tabled ps final (slot + 1)) {p : Program} (hp : p.isMark = false) (seq : Nat) (frames : List Frame)
    {w : Work} (hw : w.Tabled) : (r.start ⟨slot, seq, frames, w⟩).Tabled (p :: ps) final slot := by
  refine ⟨?_, ?_, ?_, ?_⟩
  · refine List.pairwise_cons.mpr ⟨?_, h.ordered⟩
    intro i hi
    obtain ⟨f, hf, rfl⟩ := List.mem_map.mp hi
    obtain ⟨i, hi, -, -⟩ := h.started f hf
    simp only at hi ⊢
    omega
  · intro f hf
    rcases List.mem_cons.mp hf with rfl | hf
    · refine ⟨0, rfl, rfl, ?_⟩
      rintro ⟨⟩
      cases hp
    · obtain ⟨i, hi, hb, hn⟩ := h.started f hf
      exact ⟨i + 1, by omega, hb, hn⟩
  · intro hb i hi
    cases i with
    | zero => rfl
    | succ i => exact h.kept hb i hi
  · intro f hf
    rcases List.mem_cons.mp hf with rfl | hf
    · exact hw
    · exact h.works f hf

theorem Tabled.marks {r : Round} {ps : List Program} {final : Program → Bool} (h : r.Tabled ps final 0)
    (hf : final .blocked = false) {is : List Nat} (hm : Scheduler.Marks ps is) :
    Scheduler.Marks r.slots (is ++ r.flights.map (·.slot)) := by
  constructor
  · refine List.nodup_append.mpr ⟨hm.nodup, h.ordered.imp Nat.ne_of_lt, ?_⟩
    rintro i hi _ hj rfl
    obtain ⟨f, hf, rfl⟩ := List.mem_map.mp hj
    obtain ⟨j, he, -, hn⟩ := h.started f hf
    rw [Nat.zero_add] at he
    exact hn (he ▸ hm.blocked f.slot hi)
  · intro i hi
    rcases List.mem_append.mp hi with hi | hi
    · exact h.kept hf i (hm.blocked i hi)
    · obtain ⟨f, hf, rfl⟩ := List.mem_map.mp hi
      obtain ⟨i, hi, hb, -⟩ := h.started f hf
      rw [hi, Nat.zero_add]
      exact hb

end Round

theorem Program.tabled_cases (c : Setting) (s : State) :
    DispatchCases c s (fun _ _ _ l => l.work.Tabled) (fun ps _ final slot _ _ r => r.Tabled ps final slot) where
  failed _ _ _ _ _ := .plain rfl
  finished _ _ _ _ := .plain rfl
  call _ _ scopes σ bound _ := .plain (Work.isPlain_perform scopes [] [] s bound σ)
  plan _ _ scopes σ plan _ := .plain (Work.isPlain_performAll scopes s σ plan.trace)
  enter _ _ _ _ _ _ h := h
  skip _ _ _ _ _ _ h := h
  before _ _ _ _ _ _ h := h
  bind _ _ _ _ _ h := h
  decided _ _ _ _ _ _ _ _ := .group ⟨List.nodup_nil, nofun⟩ nofun
  group _ branches _ _ r _ _ _ _ h := by
    refine .group ?_ ?_
    · have hm := h.marks rfl (⟨List.nodup_nil, nofun⟩ : Scheduler.Marks branches [])
      simpa [Scheduler.Tabled, Scheduler.pendingSlots, Scheduler.flights] using hm
    · intro f hf
      exact h.works f (by simpa [Scheduler.flights] using hf)
  nil _ _ _ _ _ := ⟨.nil, nofun, nofun, nofun⟩
  done p _ _ _ _ _ _ _ hf h := h.keep fun hb hp => by
    rw [hp, hb] at hf
    cases hf
  mark p _ _ _ _ _ _ _ _ _ h := h.keep fun _ hp => hp
  start _ _ _ _ _ seq _ l _ _ hm hl h := h.start hm seq l.frames hl

namespace Work

theorem tabled_dispatchLive {s : Scheduler Work} (h : (group s).Tabled) (hb : s.batch = []) (c : Setting) (σ : World) :
    (s.dispatchLive c σ).1.Tabled := by
  obtain ⟨hs, hf⟩ := h.inv
  have hr := (Program.tabled_cases c s.state).round s.slots (s.scope :: s.outer) (fun _ => false) 0 s.nextSeq σ
  refine .group ((hr.marks rfl hs).perm ?_) ?_
  · simp only [Scheduler.pendingSlots, Scheduler.flights, hb, List.map_nil, List.append_nil, List.map_append,
      List.append_assoc]
    exact List.perm_append_comm.append_left _
  · intro f hm
    rcases Scheduler.mem_flights_dispatchLive hm with hm | hm
    · exact hf f hm
    · exact hr.works f hm

theorem Moves.tabled {c : Setting} {w w' : Work} {σ τ : World} (h : Moves c w σ w' τ) (hw : w.Tabled) : w'.Tabled := by
  induction h with
  | act h => exact .plain (Execution.isPlain_advance h)
  | finish _ _ => exact .plain rfl
  | starve _ _ _ => exact .plain rfl
  | rest _ _ _ => exact (stirs_look _ _).tabled hw
  | fail _ _ _ => exact .plain rfl
  | decide _ _ _ _ => exact .plain rfl
  | go _ _ ht _ =>
    obtain ⟨hs, hf⟩ := hw.inv
    obtain ⟨he, hb⟩ := Scheduler.flights_foldBatch ht
    rw [← he] at hf
    exact tabled_dispatchLive (.group (hs.foldBatch ht) hf) hb c _
  | @follow s f rest σ τ w hs _ ih =>
    obtain ⟨ha, hf⟩ := hw.inv
    refine .group (ha.perm ?_) ?_
    · rw [Scheduler.pendingSlots, Scheduler.pendingSlots, Scheduler.flights, Scheduler.flights, hs.queue]
      exact .refl _
    · intro g hm
      rcases hs.mem_flights_follow hm with rfl | hm
      · exact ih (hf f hs.mem_flights)
      · exact hf g hm
  | @receive s f rest σ hs _ =>
    obtain ⟨outcome, -, he⟩ | hst := receive_cases hs.queue
    · obtain ⟨ha, hf⟩ := hw.inv
      rw [he]
      refine .group (ha.perm ?_) fun g hm => hf g (hs.mem_flights_of_mem_rest hm)
      -- the slot of the flight moves from the front of the list to its end
      rw [Scheduler.pendingSlots, Scheduler.pendingSlots, Scheduler.flights, Scheduler.flights, hs.queue]
      simp only [List.map_append, List.map_cons, List.map_nil, List.cons_append, ← List.append_assoc]
      exact List.perm_append_singleton _ _
    · exact hst.tabled hw

end Work

end Agenda
