import Mathlib
import Agenda.Proofs.Origins

/-!
# The slot table while a construct waits

A construct that waits for one of its flights has a slot for each of its branches. A slot reads `done`, or it reads
`blocked` and has just one transition under way. The numbers of dispatch are drawn in order, so that those in use are
distinct and smaller than the next one, and the shared state is what the updates that were folded make of the state the
construct was dispatched in. In between, while a batch is gathered, the transitions of the batch count as pending too.
-/

namespace Agenda

set_option autoImplicit false

/-- Numbers that were drawn one by one, from zero on, up to the next one. -/
structure Drawn (next : Nat) (ns : List Nat) : Prop where
  nodup : ns.Nodup
  below : ∀ n ∈ ns, n < next

namespace Drawn

variable {next : Nat} {ns ms : List Nat}

theorem perm (h : Drawn next ns) (hp : ms.Perm ns) : Drawn next ms :=
  ⟨hp.nodup_iff.mpr h.nodup, fun n hn => h.below n (hp.mem_iff.mp hn)⟩

theorem sublist (h : Drawn next ns) (hs : ms.Sublist ns) : Drawn next ms :=
  ⟨h.nodup.sublist hs, fun n hn => h.below n (hs.subset hn)⟩

theorem append_range' (h : Drawn next ns) (count : Nat) : Drawn (next + count) (ns ++ List.range' next count) := by
  constructor
  · refine List.nodup_append.mpr ⟨h.nodup, List.nodup_range', ?_⟩
    rintro n hn _ hm rfl
    have := h.below n hn
    rw [List.mem_range'_1] at hm
    omega
  · intro n hn
    rcases List.mem_append.mp hn with hn | hn
    · have := h.below n hn
      omega
    · rw [List.mem_range'_1] at hn
      omega

end Drawn

/-! ### Rounds -/

/-- A round that leaves nothing but marks behind. Where it reads `blocked` there was such a mark before, or a flight was
started, and the flights have the numbers from a given one on. -/
structure Round.Numbered (r : Round) (ps : List Program) (slot seq : Nat) : Prop where
  length : r.slots.length = ps.length
  marks : ∀ p ∈ r.slots, p.isMark = true
  covered : ∀ i : Nat, r.slots[i]? = some .blocked → ps[i]? = some .blocked ∨ slot + i ∈ r.flights.map (·.slot)
  seqs : r.flights.map (·.seq) = List.range' seq r.flights.length

namespace Round

variable {r : Round} {ps : List Program} {slot seq : Nat}

theorem Numbered.keep (h : r.Numbered ps (slot + 1) seq) {p q : Program} (hq : q.isMark = true)
    (hb : q = .blocked → p = .blocked) : (r.keep q).Numbered (p :: ps) slot seq := by
  refine ⟨congrArg (· + 1) h.length, List.forall_mem_cons.mpr ⟨hq, h.marks⟩, ?_, h.seqs⟩
  intro i hi
  cases i with
  | zero => exact .inl (congrArg some (hb (Option.some.inj hi)))
  | succ i =>
    refine (h.covered i hi).imp_right ?_
    rw [Nat.add_right_comm]
    exact id

theorem Numbered.start (h : r.Numbered ps (slot + 1) (seq + 1)) (p : Program) (frames : List Frame) (w : Work) :
    (r.start ⟨slot, seq, frames, w⟩).Numbered (p :: ps) slot seq := by
  refine ⟨congrArg (· + 1) h.length, List.forall_mem_cons.mpr ⟨rfl, h.marks⟩, ?_, ?_⟩
  · intro i hi
    cases i with
    | zero => exact .inr List.mem_cons_self
    | succ i =>
      refine (h.covered i hi).imp_right ?_
      rw [Nat.add_right_comm]
      exact List.mem_cons_of_mem slot
  · exact congrArg (seq :: ·) h.seqs

end Round

theorem Program.numbered_cases (c : Setting) (s : State) :
    DispatchCases c s (fun _ _ _ _ => True) (fun ps _ _ slot seq _ r => r.Numbered ps slot seq) where
  failed _ _ _ _ _ := trivial
  finished _ _ _ _ := trivial
  call _ _ _ _ _ _ := trivial
  plan _ _ _ _ _ _ := trivial
  enter _ _ _ _ _ _ _ := trivial
  skip _ _ _ _ _ _ _ := trivial
  before _ _ _ _ _ _ _ := trivial
  bind _ _ _ _ _ _ := trivial
  decided _ _ _ _ _ _ _ _ := trivial
  group _ _ _ _ _ _ _ _ _ _ := trivial
  nil _ _ _ _ _ := ⟨rfl, List.forall_mem_nil _, fun i hi => .inl hi, rfl⟩
  done _ _ _ _ _ _ _ _ _ h := h.keep rfl (by rintro ⟨⟩)
  mark _ _ _ _ _ _ _ _ _ hm h := h.keep hm id
  start p _ _ _ _ _ _ l _ _ _ _ h := h.start p l.frames l.work

/-! ### Constructs -/

namespace Scheduler

/-- The slot and the number of every transition that is not folded yet. -/
def tags (s : Scheduler Work) : List (Nat × Nat) :=
  s.flights.map (fun f => (f.slot, f.seq)) ++ s.batch.map fun d => (d.slot, d.seq)

theorem tags_slots (s : Scheduler Work) : s.tags.map (·.1) = s.pendingSlots := by
  simp only [tags, pendingSlots, List.map_append, List.map_map, Function.comp_def]

theorem tags_seqs (s : Scheduler Work) : s.tags.map (·.2) = s.flights.map (·.seq) ++ s.batch.map (·.seq) := by
  simp only [tags, List.map_append, List.map_map, Function.comp_def]

/-- What holds of a construct with so many branches at any time after it was dispatched in the state. -/
structure Orderly (count : Nat) (start : State) (s : Scheduler Work) : Prop where
  slots : s.slots.length = count
  marks : s.isFinished = false → ∀ p ∈ s.slots, p.isMark = true
  covered : s.isFinished = false → ∀ i : Nat, s.slots[i]? = some .blocked → i ∈ s.tags.map (·.1)
  drawn : Drawn s.nextSeq (s.tags.map (·.2))
  state : Update.applyAll start s.applied = s.state

variable {count : Nat} {start : State} {s t : Scheduler Work}

/-- Only which transitions are pending matters, not where and in which order they are kept. -/
theorem Orderly.perm (h : s.Orderly count start) {queue waiting : List (Flight Work)} {batch : List Completion}
    {attention : Attention} (hp : ({ s with queue, waiting, batch, attention } : Scheduler Work).tags.Perm s.tags) :
    ({ s with queue, waiting, batch, attention } : Scheduler Work).Orderly count start := by
  refine ⟨h.slots, h.marks, ?_, h.drawn.perm (hp.map _), h.state⟩
  intro hf i hi
  exact (hp.map _).mem_iff.mpr (h.covered hf i hi)

theorem covered_foldAll {cs : List Completion} {is : List Nat}
    (h : ∀ i : Nat, s.slots[i]? = some .blocked → i ∈ cs.map (·.slot) ++ is) (ht : s.foldAll cs = .ok t)
    (hf : t.isFinished = false) : ∀ i : Nat, t.slots[i]? = some .blocked → i ∈ is := by
  induction cs generalizing s with
  | nil =>
    cases ht
    exact h
  | cons d rest ih =>
    rw [foldAll] at ht
    split at ht
    · rename_i hs
      cases ht
      rw [hs] at hf
      cases hf
    · obtain ⟨u, hu, ht⟩ := Except.exists_of_bind_eq_ok ht
      obtain ⟨o, next, -, hn, rfl⟩ := complete_eq_ok hu
      refine ih ?_ ht
      intro i hi
      -- the slot that is folded does not read `blocked` afterwards
      have hne : d.slot ≠ i := by
        rintro rfl
        rw [List.getElem?_set_self'] at hi
        obtain ⟨q, -, rfl⟩ := Option.map_eq_some_iff.mp hi
        rcases nextSlot_cases hn with hd | hr
        · cases hd
        · cases Frame.isMark_residual hr
      rw [List.getElem?_set_ne hne] at hi
      rcases List.mem_cons.mp (h i hi) with rfl | hm
      · exact absurd rfl hne
      · exact hm

theorem Orderly.dispatchLive (h : s.Orderly count start) (hs : s.isFinished = false) (ht : s.foldBatch = .ok t)
    (hf : t.isFinished = false) (c : Setting) (σ : World) :
    ∃ u, (t.dispatchLive c σ).1 = .group u ∧ u.Orderly count start := by
  obtain ⟨he, hb⟩ := flights_foldBatch ht
  obtain ⟨hl, hq⟩ : t.slots.length = count ∧ t.nextSeq = s.nextSeq := by
    refine foldBatch_induction (P := fun u => u.slots.length = count ∧ u.nextSeq = s.nextSeq) ?_ ⟨h.slots, rfl⟩ ht
    intro u d v _ hu _ hv
    obtain ⟨o, next, -, -, rfl⟩ := complete_eq_ok hv
    exact ⟨by rw [List.length_set, hu.1], hu.2⟩
  have hc : ∀ i : Nat, t.slots[i]? = some .blocked → i ∈ t.flights.map (·.slot) := by
    rw [he]
    refine covered_foldAll (s := { s with batch := [] }) ?_ ht hf
    intro i hi
    have hp := List.mergeSort_perm s.batch fun a b => decide (a.seq ≤ b.seq)
    have hi := h.covered hs i hi
    rw [tags_slots, pendingSlots] at hi
    exact (((hp.map _).append_right _).trans List.perm_append_comm).mem_iff.mpr hi
  have hr := (Program.numbered_cases c t.state).round t.slots (t.scope :: t.outer) (fun _ => false) 0 t.nextSeq σ
  have hst := replays_foldBatch h.state ht
  refine ⟨_, rfl, ?_, fun _ => hr.marks, ?_, ?_, hst⟩
  · rw [hr.length, hl]
  · intro _ i hi
    rw [tags_slots]
    simp only [pendingSlots, flights, hb, List.map_append, List.map_nil, List.append_nil, List.mem_append]
    rcases hr.covered i hi with hi | hi
    · have hi := hc i hi
      rw [flights, List.map_append, List.mem_append] at hi
      exact hi.elim (fun hi => .inl (.inl hi)) .inr
    · rw [Nat.zero_add] at hi
      exact .inl (.inr hi)
  · have hd : Drawn t.nextSeq (t.flights.map (·.seq)) := by
      rw [hq, he]
      refine h.drawn.sublist ?_
      rw [tags_seqs]
      exact List.sublist_append_left _ _
    refine (hr.seqs ▸ hd.append_range' _ : Drawn _ (t.flights.map (·.seq) ++ _)).perm ?_
    rw [tags_seqs]
    simp only [flights, hb, List.map_append, List.map_nil, List.append_nil, List.append_assoc]
    exact List.perm_append_comm.append_left _

end Scheduler

namespace Work

def Orderly (count : Nat) (start : State) : Work → Prop
  | .group s => s.Orderly count start
  | _ => True

variable {c : Setting} {count : Nat} {start : State} {w w' : Work} {σ τ : World}

theorem orderly_of_isPlain (h : w.isPlain = true) : w.Orderly count start := by
  cases w with
  | group s => cases h
  | _ => trivial

theorem Stirs.orderly (h : Stirs w w') (hw : w.Orderly count start) : w'.Orderly count start := by
  cases h with
  | settled outcome => trivial
  | acting e timer postponed _ => trivial
  | group fs he hp _ =>
    refine Scheduler.Orderly.perm hw ?_
    exact (map_stirred_perm (fun f => (f.slot, f.seq)) he hp fun _ _ => rfl).append_right _

theorem Moves.orderly (h : Moves c w σ w' τ) (hw : w.Orderly count start) : w'.Orderly count start := by
  cases h with
  | act h => exact orderly_of_isPlain (Execution.isPlain_advance h)
  | finish _ _ => trivial
  | starve _ _ _ => trivial
  | rest _ _ _ => exact (stirs_look _ _).orderly hw
  | fail _ _ _ => trivial
  | decide _ _ _ _ => trivial
  | go hs _ ht hf =>
    obtain ⟨u, hu, ho⟩ := hw.dispatchLive hs.unfinished ht hf c σ
    rw [hu]
    exact ho
  | @follow s f rest _ _ w hs _ =>
    refine Scheduler.Orderly.perm hw ?_
    rw [Scheduler.tags, Scheduler.tags, Scheduler.flights, Scheduler.flights, hs.queue]
    exact .refl _
  | @receive s f rest _ hs _ =>
    obtain ⟨outcome, -, he⟩ | hst := receive_cases hs.queue
    · rw [he]
      refine Scheduler.Orderly.perm hw ?_
      -- the flight in front becomes the last one of the batch
      rw [Scheduler.tags, Scheduler.tags, Scheduler.flights, Scheduler.flights, hs.queue]
      simp only [List.map_append, List.map_cons, List.map_nil, List.cons_append, ← List.append_assoc]
      exact List.perm_append_singleton _ _
    · exact hst.orderly hw

theorem Evolves.orderly (h : Evolves c w w') (hw : w.Orderly count start) : w'.Orderly count start := by
  induction h with
  | refl => exact hw
  | move _ hm ih => exact hm.orderly ih
  | stir _ hs ih => exact hs.orderly ih

theorem Evolves.tabled (h : Evolves c w w') (hw : w.Tabled) : w'.Tabled := by
  induction h with
  | refl => exact hw
  | move _ hm ih => exact hm.tabled ih
  | stir _ hs ih => exact hs.tabled ih

end Work

theorem Program.orderly_dispatch {kind : Control} {branches : List Program} (c : Setting) (start : State)
    (scopes : List Nat) (σ : World) (hk : kind = .conc ∨ kind = .either)
    (hv : (control kind branches).validate = .ok ()) :
    ((control kind branches).dispatch c start scopes σ).work.Orderly branches.length start := by
  rw [dispatch_construct c start hk]
  split
  · trivial
  · split
    · rename_i hf
      -- it is finished before anything is dispatched
      have hn : Scheduler.slotsFinished kind (markFinal start branches) ≠ false := by simp [hf]
      refine ⟨List.length_map _, fun h => absurd h hn, fun h => absurd h hn, ⟨List.nodup_nil, ?_⟩, rfl⟩
      exact List.forall_mem_nil _
    · have hr := (numbered_cases c start).round branches (σ.nextScope :: scopes) (startsFinal start) 0 0 σ.openScope
      refine ⟨hr.length, fun _ => hr.marks, ?_, ?_, rfl⟩
      · intro _ i hi
        rw [Scheduler.tags_slots]
        simp only [Scheduler.pendingSlots, Scheduler.flights, List.append_nil, List.map_nil]
        rcases hr.covered i hi with hb | hm
        · have hb := (validate_control hv).2 _ (List.mem_of_getElem? hb)
          cases hb
        · rwa [Nat.zero_add] at hm
      · rw [Scheduler.tags_seqs]
        simp only [Scheduler.flights, List.append_nil, List.map_nil, hr.seqs]
        have hd := (⟨List.nodup_nil, List.forall_mem_nil _⟩ : Drawn 0 []).append_range'
          (dispatchSlots c start (σ.nextScope :: scopes) (startsFinal start) 0 0 branches σ.openScope).flights.length
        rwa [Nat.zero_add] at hd

namespace Scheduler

variable {c : Setting} {branches : List Program} {start : State} {s : Scheduler Work}

theorem Stems.orderly (h : s.Stems c branches start) (hk : s.kind = .conc ∨ s.kind = .either)
    (hv : (Program.control s.kind branches).validate = .ok ()) : s.Orderly branches.length start := by
  obtain ⟨scopes, σ, he⟩ := h
  exact he.orderly (Program.orderly_dispatch c start scopes σ hk hv)

theorem Stems.tabled (h : s.Stems c branches start) : s.Tabled := by
  obtain ⟨scopes, σ, he⟩ := h
  exact (he.tabled ((Program.tabled_cases c start).dispatch _ scopes σ)).inv.1

structure Awaits (s : Scheduler Work) : Prop where
  unfinished : s.isFinished = false
  batch : s.batch = []

structure Accounted (count : Nat) (start : State) (s : Scheduler Work) : Prop where
  slots : s.slots.length = count
  marks : ∀ p ∈ s.slots, p = .done ∨ p = .blocked
  blocked : ∀ i : Nat, s.slots[i]? = some .blocked → (s.flights.map (·.slot)).count i = 1
  done : ∀ i : Nat, s.slots[i]? = some .done → (s.flights.map (·.slot)).count i = 0
  inside : ∀ f ∈ s.flights, f.slot < s.slots.length
  distinct : (s.flights.map (·.seq)).Nodup
  below : ∀ f ∈ s.flights, f.seq < s.nextSeq
  state : s.state = Update.applyAll start s.applied

theorem Orderly.accounted {count : Nat} (h : s.Orderly count start) (ht : s.Tabled) (ha : s.Awaits) :
    s.Accounted count start := by
  obtain ⟨hf, hb⟩ := ha
  have hp : s.pendingSlots = s.flights.map (·.slot) := by rw [pendingSlots, hb, List.map_nil, List.append_nil]
  have hd := h.drawn
  rw [tags_seqs, hb, List.map_nil, List.append_nil] at hd
  rw [Tabled, hp] at ht
  refine ⟨h.slots, ?_, ?_, ?_, ?_, hd.nodup, ?_, h.state.symm⟩
  · intro p hm
    have hm := h.marks hf p hm
    unfold Program.isMark at hm
    split at hm
    · exact .inl rfl
    · exact .inr rfl
    · cases hm
  · intro i hi
    have hm := h.covered hf i hi
    rw [tags_slots, hp] at hm
    exact List.count_eq_one_of_mem ht.nodup hm
  · intro i hi
    apply List.count_eq_zero_of_not_mem
    intro hm
    rw [ht.blocked i hm] at hi
    cases hi
  · intro f hm
    obtain ⟨hl, -⟩ := List.getElem?_eq_some_iff.mp (ht.blocked f.slot (List.mem_map_of_mem hm))
    exact hl
  · intro f hm
    exact hd.below f.seq (List.mem_map_of_mem hm)

theorem Tabled.nothing_left {o : Outcome} {π τ : World} (h : s.Tabled) (hk : s.kind ≠ .either)
    (hm : Work.Moves c (.group s) π (.settled (.ok o)) τ) : s.flights = [] ∧ τ.detached = π.detached := by
  have hd : ∀ t : Scheduler Work, t.flights = [] → (π.abandon t.scope t.works).detached = π.detached := by
    intro t ht
    simp [World.abandon, World.record, works, ht]
  cases hm with
  | finish _ hf =>
    have he := (h.nothing_pending hk hf).1
    exact ⟨he, hd s he⟩
  | @decide _ t _ _ _ _ ht hf =>
    have he := ((h.foldBatch ht).nothing_pending (by rwa [kind_foldBatch ht]) hf).1
    exact ⟨(flights_foldBatch ht).1 ▸ he, hd t he⟩

end Scheduler

namespace Program

/-- All constructs in a run of a valid program, however deep they lie and whether they are waited for or not, were
dispatched as valid constructs and are on their own ways since. And whenever such a construct waits for a flight, its
slots, its flights, its numbers and its state are in order. When a `conc` succeeds, nothing is left of it. -/
theorem slot_tables_in_order (c : Setting) {p : Program} (s : State) (hp : p.validate = .ok ()) :
    (∀ before m, p.Visits c s c.initial before m → ∀ w ∈ m.works, ∀ sch, w.Contains sch →
      (sch.kind = .conc ∨ sch.kind = .either) ∧
      ∃ branches start, (control sch.kind branches).validate = .ok () ∧ sch.Stems c branches start) ∧
    ∀ (sch : Scheduler Work) branches start, sch.kind = .conc ∨ sch.kind = .either →
      (control sch.kind branches).validate = .ok () → sch.Stems c branches start →
      (sch.Awaits → sch.Accounted branches.length start) ∧
      (sch.kind = .conc → ∀ o π τ, Work.Moves c (.group sch) π (.settled (.ok o)) τ →
        sch.flights = [] ∧ τ.detached = π.detached) := by
  constructor
  · intro before m hv w hw sch hs
    have hr := (hv.rooted hereditary_remnant (.valid hp) w hw).contains hs
    obtain ⟨branches, start, hb, ho⟩ := hr.origin
    exact ⟨hr.kind, branches, start, hb.validate_control, ho⟩
  · intro sch branches start hk hv hs
    constructor
    · exact (hs.orderly hk hv).accounted hs.tabled
    · intro hc o π τ hm
      refine hs.tabled.nothing_left ?_ hm
      rw [hc]
      rintro ⟨⟩

def raceBesideCounts : Program :=
  .control .conc [.control .either [.call "Sleep" [("time", .const (.int 5))], .call "Inc" [("ms", .const (.int 9))]],
    .block [.call "Inc" [("ms", .const (.int 3))], .call "Inc" []]]

theorem slot_tables_in_order_raceBesideCounts :
    raceBesideCounts.validate = .ok () ∧
    ∃ before m sch, raceBesideCounts.Visits Setting.standard {} Setting.standard.initial before m ∧
      m.main.Contains sch ∧ sch.kind = .either ∧ sch.flights.length = 2 ∧ sch.Awaits ∧
      ∃ branches start, sch.Stems Setting.standard branches start ∧ sch.Accounted branches.length start := by
  have hf : raceBesideCounts.isFinal {} = .ok false := by cbv
  have hv : raceBesideCounts.validate = .ok () := by cbv
  obtain ⟨ho, ha⟩ := slot_tables_in_order Setting.standard {} hv
  refine ⟨hv, ?_⟩
  obtain ⟨sch, hs, hk, hl, hw⟩ : ∃ sch,
      (raceBesideCounts.started Setting.standard {} Setting.standard.initial).main.Contains sch ∧
      sch.kind = .either ∧ sch.flights.length = 2 ∧ sch.Awaits :=
    ⟨_, .flight List.mem_cons_self .here, rfl, rfl, rfl, rfl⟩
  obtain ⟨hk', branches, start, hb, ht⟩ := ho _ _ (.start hf) _ List.mem_cons_self sch hs
  exact ⟨_, _, sch, .start hf, hs, hk, hl, hw, branches, start, ht, (ha sch branches start hk' hb ht).1 hw⟩

end Program

end Agenda
