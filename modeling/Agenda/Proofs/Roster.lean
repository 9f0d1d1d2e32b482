import Mathlib
import Agenda.Proofs.Vocabulary

/-!
# Rosters

Branches that are lists of errands, each of which takes its time and succeeds, run side by side in a way that can be
told without works, frames and slots. A roster is such a construct: which errands are under way, which wait for their
time or for another look from outside, which have come to their end, and which effects were folded in what order. Its
steps are those of the machine, seen from further away.

Every branch goes through its errands in order, one at a time. Everything that was dispatched is accounted for.
-/

namespace Agenda

set_option autoImplicit false

/-- A call that is the same action in every state. It is always possible, takes its time and succeeds. -/
structure Errand (d : Domain) where
  name : String
  args : Fields Expr
  bound : BoundAction
  ms : Nat
  result : Option Value
  named : name ≠ ""
  resolves : ∀ s, d.resolve s name args = .ok bound
  possible : ∀ s, bound.action.possible s = true
  latency : bound.action.latency = some ms
  succeeds : bound.action.outcome = .ok result

/-- An errand that was dispatched: its branch, what comes before and after it there, its number in the order of
dispatch, and the state in which it was dispatched. -/
structure Leg (d : Domain) where
  lane : Nat
  before : List (Errand d)
  errand : Errand d
  after : List (Errand d)
  seq : Nat
  seen : State

/-- Where a branch stands: at its end, with an errand under way, or with one to be dispatched. -/
inductive Lane (d : Domain) where
  | done
  | busy
  | ready (before : List (Errand d)) (errand : Errand d) (after : List (Errand d))

/-- A construct whose branches are lists of errands. -/
structure Roster (d : Domain) (budget : Budget) where
  /-- Whether the first branch that is done finishes the construct. -/
  race : Bool
  base : State
  clock : Nat := 0
  allowance : Nat := budget
  tickets : Nat := 0
  log : List Event := []
  lanes : List (Lane d)
  calls : List (Leg d) := []
  /-- How many of the calls have started. -/
  begun : Nat := 0
  queue : List (Leg d) := []
  timed : List (Nat × Leg d) := []
  /-- The legs that wait for another look from outside, with their tickets. -/
  postponed : List (Nat × Leg d) := []
  /-- The legs that came to their end and are not folded yet. -/
  batch : List (Leg d) := []
  /-- What was folded in earlier looks, look by look. -/
  past : List (List (Leg d)) := []
  now : List (Leg d) := []

variable {d : Domain} {budget : Budget}

namespace Leg

/-- The time at which all errands before it have come to their end. -/
def start (l : Leg d) : Nat := (l.before.map Errand.ms).sum

def finish (l : Leg d) : Nat := l.start + l.errand.ms

def index (l : Leg d) : Nat := l.before.length

def apply (s : State) (l : Leg d) : State := l.errand.bound.action.effect s

def On (branches : List (List (Errand d))) (l : Leg d) : Prop :=
  branches[l.lane]? = some (l.before ++ l.errand :: l.after)

end Leg

namespace Lane

def of (before : List (Errand d)) : List (Errand d) → Lane d
  | [] => .done
  | errand :: after => .ready before errand after

def isDone : Lane d → Bool
  | .done => true
  | _ => false

def launched : Lane d → Lane d
  | .done => .done
  | _ => .busy

/-- The legs of a round of dispatching, from the given lane and number on. -/
def launch (seen : State) : Nat → Nat → List (Lane d) → List (Leg d)
  | _, _, [] => []
  | lane, seq, .ready before errand after :: rest =>
    ⟨lane, before, errand, after, seq, seen⟩ :: launch seen (lane + 1) (seq + 1) rest
  | lane, seq, _ :: rest => launch seen (lane + 1) seq rest

end Lane

namespace Roster

def folded (r : Roster d budget) : List (Leg d) := r.past.flatten ++ r.now

def pending (r : Roster d budget) : List (Leg d) :=
  r.batch ++ r.queue ++ r.timed.map (·.2) ++ r.postponed.map (·.2)

def state (r : Roster d budget) : State := r.folded.foldl Leg.apply r.base

def isOver (r : Roster d budget) : Bool := if r.race then r.lanes.any Lane.isDone else r.lanes.all Lane.isDone

def dispatch (r : Roster d budget) : Roster d budget :=
  let legs := Lane.launch r.state 0 r.calls.length r.lanes
  { r with
    lanes := r.lanes.map Lane.launched
    queue := r.queue ++ legs
    calls := r.calls ++ legs
    log := r.log ++ legs.map fun l => .dispatched l.errand.bound [0] r.clock }

def start (r : Roster d budget) (l : Leg d) : Roster d budget :=
  { r with begun := l.seq + 1, log := r.log ++ [.started l.errand.bound [0] r.clock] }

/-- Looks at the leg in front of the queue: it is postponed, comes to its end or waits for its time. -/
def look (r : Roster d budget) (l : Leg d) (rest : List (Leg d)) : Roster d budget :=
  if r.allowance = 0 then
    { r with queue := rest, postponed := r.postponed ++ [(r.tickets, l)], tickets := r.tickets + 1 }
  else if l.finish = r.clock then
    { r with
      queue := rest
      batch := r.batch ++ [l]
      allowance := r.allowance - 1
      log := r.log ++ [.completed l.errand.bound.record r.clock] }
  else
    { r with queue := rest, timed := r.timed ++ [(r.tickets, l)], tickets := r.tickets + 1 }

def absorb (r : Roster d budget) (l : Leg d) (rest : List (Leg d)) : Roster d budget :=
  { r with
    lanes := r.lanes.set l.lane (.of (l.before ++ [l.errand]) l.after)
    now := r.now ++ [l]
    batch := rest }

def absorbAll (r : Roster d budget) : List (Leg d) → Roster d budget
  | [] => r
  | l :: rest => if r.isOver then r else (r.absorb l rest).absorbAll rest

def sorted (r : Roster d budget) : List (Leg d) := r.batch.insertionSort fun a b => a.seq ≤ b.seq

def fold (r : Roster d budget) : Roster d budget := { r with batch := r.sorted }.absorbAll r.sorted

/-- Another look from outside: what was postponed is taken up, the last one first. -/
def takeUp (r : Roster d budget) : Roster d budget :=
  { r with
    queue := (r.postponed.map (·.2)).reverse
    postponed := []
    allowance := budget
    past := r.past ++ [r.now]
    now := [] }

def ring (r : Roster d budget) (time : Nat) : Roster d budget :=
  { r with
    clock := time
    queue := (r.timed.filter (·.2.finish ≤ time)).map (·.2)
    timed := r.timed.filter fun x => !decide (x.2.finish ≤ time)
    allowance := budget
    past := r.past ++ [r.now]
    now := [] }

def nextDue (r : Roster d budget) : Nat := (r.timed.map (·.2.finish)).min?.getD r.clock

def next (r : Roster d budget) : Roster d budget :=
  match r.queue, r.batch with
  | l :: rest, _ => if r.begun ≤ l.seq then r.start l else r.look l rest
  | [], _ :: _ => if r.fold.isOver then r.fold else r.fold.dispatch
  | [], [] => if r.allowance = 0 then r.takeUp else r.ring r.nextDue

def runFor : Nat → Roster d budget → Roster d budget
  | 0, r => r
  | n + 1, r => if r.isOver then r else runFor n r.next

def blank (budget : Budget) (race : Bool) (s : State) (branches : List (List (Errand d))) : Roster d budget where
  race
  base := s
  lanes := branches.map (.of [])

end Roster

/-! ### Where the branches stand -/

/-- The places in a branch of those legs that belong to it. -/
def Leg.indices (lane : Nat) (legs : List (Leg d)) : List Nat := (legs.filter (·.lane = lane)).map Leg.index

namespace Leg

variable {i : Nat} {legs more : List (Leg d)} {l : Leg d}

theorem indices_append : indices i (legs ++ more) = indices i legs ++ indices i more := by
  rw [indices, List.filter_append, List.map_append]
  rfl

theorem indices_cons_self (h : l.lane = i) : indices i (l :: legs) = l.index :: indices i legs := by
  rw [indices, List.filter_cons_of_pos (by simpa using h), List.map_cons]
  rfl

theorem indices_cons_of_ne (h : l.lane ≠ i) : indices i (l :: legs) = indices i legs := by
  rw [indices, List.filter_cons_of_neg (by simpa using h)]
  rfl

theorem indices_perm (h : legs.Perm more) : (indices i legs).Perm (indices i more) := (h.filter _).map _

theorem index_mem_indices (h : l ∈ legs) : l.index ∈ indices l.lane legs :=
  List.mem_map_of_mem (List.mem_filter.mpr ⟨h, decide_eq_true rfl⟩)

theorem count_lanes (i : Nat) (legs : List (Leg d)) : (legs.map Leg.lane).count i = (indices i legs).length := by
  rw [List.count_eq_length_filter, List.filter_map, List.length_map, indices, List.length_map]
  rfl

theorem indices_eq_nil (h : ∀ l ∈ legs, l.lane ≠ i) : indices i legs = [] := by
  rw [indices, List.filter_eq_nil_iff.mpr, List.map_nil]
  intro l hl
  simpa using h l hl

end Leg

namespace Lane

def upcoming : Lane d → List Nat
  | .ready before _ _ => [before.length]
  | _ => []

/-- What a branch has behind it and what it has under way, according to where it stands. -/
inductive Reports (b : List (Errand d)) (behind ahead : List Nat) : Lane d → Prop
  | done : behind = List.range b.length → ahead = [] → Reports b behind ahead .done
  | busy {k : Nat} : behind = List.range k → ahead = [k] → Reports b behind ahead .busy
  | ready {before : List (Errand d)} {errand : Errand d} {after : List (Errand d)} : b = before ++ errand :: after →
      behind = List.range before.length → ahead = [] → Reports b behind ahead (.ready before errand after)

variable {b : List (Errand d)} {behind ahead : List Nat} {lane : Lane d}

theorem Reports.perm (h : lane.Reports b behind ahead) {other : List Nat} (hp : other.Perm ahead) :
    lane.Reports b behind other := by
  cases h with
  | done hb ha =>
    rw [ha] at hp
    exact .done hb hp.eq_nil
  | busy hb ha =>
    rw [ha] at hp
    exact .busy hb (List.perm_singleton.mp hp)
  | ready he hb ha =>
    rw [ha] at hp
    exact .ready he hb hp.eq_nil

theorem Reports.length_ahead_le (h : lane.Reports b behind ahead) : ahead.length ≤ 1 := by
  cases h with
  | done _ ha | busy _ ha | ready _ _ ha => simp [ha]

theorem Reports.launched (h : lane.Reports b behind ahead) :
    lane.launched.Reports b behind (ahead ++ lane.upcoming) := by
  cases h with
  | done hb ha => exact .done hb (by rw [ha]; rfl)
  | busy hb ha => exact .busy hb (by rw [ha]; rfl)
  | ready _ hb ha => exact .busy hb (by rw [ha]; rfl)

theorem Reports.of {before after : List (Errand d)} {errand : Errand d}
    (h : lane.Reports b behind (before.length :: ahead)) (hb : b = before ++ errand :: after) :
    (Lane.of (before ++ [errand]) after).Reports b (behind ++ [before.length]) ahead := by
  cases h with
  | busy hk ha =>
    obtain ⟨rfl, rfl⟩ := List.cons_eq_cons.mp ha
    have hn : behind ++ [before.length] = List.range (before ++ [errand]).length := by
      rw [hk, List.length_append, List.length_singleton, List.range_succ]
    cases after with
    | nil => exact .done (hb ▸ hn) rfl
    | cons e rest => exact .ready (by rw [hb, List.append_assoc, List.singleton_append]) hn rfl
  | done _ ha => cases ha
  | ready _ _ ha => cases ha

section

variable {seen : State} {lanes : List (Lane d)}

theorem mem_launch {j seq : Nat} {l : Leg d} (h : l ∈ launch seen j seq lanes) :
    ∃ i, l.lane = j + i ∧ lanes[i]? = some (.ready l.before l.errand l.after) := by
  induction lanes generalizing j seq with
  | nil => cases h
  | cons lane rest ih =>
    have later {n : Nat} (h : l ∈ launch seen (j + 1) n rest) :
        ∃ i, l.lane = j + i ∧ (lane :: rest)[i]? = some (.ready l.before l.errand l.after) := by
      obtain ⟨i, hi, hl⟩ := ih h
      exact ⟨i + 1, by omega, hl⟩
    cases lane with
    | ready before errand after =>
      rcases List.mem_cons.mp h with rfl | h
      · exact ⟨0, rfl, rfl⟩
      · exact later h
    | done | busy => exact later h

theorem seqs_launch (j seq : Nat) :
    (launch seen j seq lanes).map Leg.seq = List.range' seq (launch seen j seq lanes).length := by
  induction lanes generalizing j seq with
  | nil => rfl
  | cons lane rest ih =>
    cases lane with
    | ready before errand after =>
      rw [launch, List.map_cons, ih, List.length_cons, List.range'_succ]
    | done | busy => exact ih (j + 1) seq

theorem le_seq_of_mem_launch {l : Leg d} {j seq : Nat} (h : l ∈ launch seen j seq lanes) : seq ≤ l.seq := by
  have hm : l.seq ∈ (launch seen j seq lanes).map Leg.seq := List.mem_map_of_mem h
  rw [seqs_launch] at hm
  exact (List.mem_range'_1.mp hm).1

theorem indices_launch (j seq i : Nat) :
    Leg.indices (j + i) (launch seen j seq lanes) = lanes[i]?.elim [] upcoming := by
  induction lanes generalizing j seq i with
  | nil => rfl
  | cons lane rest ih =>
    have behind (n : Nat) : Leg.indices j (launch seen (j + 1) n rest) = [] := by
      refine Leg.indices_eq_nil fun l hl => ?_
      obtain ⟨k, hk, -⟩ := mem_launch hl
      omega
    have ih (n : Nat) : ∀ i, Leg.indices (j + (i + 1)) (launch seen (j + 1) n rest) = rest[i]?.elim [] upcoming := by
      intro i
      rw [← ih (j + 1) n i]
      congr 1
      omega
    cases lane with
    | ready before errand after =>
      cases i with
      | zero =>
        rw [launch, Nat.add_zero, Leg.indices_cons_self (by rfl), behind]
        rfl
      | succ i =>
        rw [launch, Leg.indices_cons_of_ne (by simp), ih]
        rfl
    | done | busy =>
      cases i with
      | zero =>
        rw [Nat.add_zero]
        exact behind seq
      | succ i => exact ih seq i

end

end Lane

namespace Roster

variable {branches : List (List (Errand d))} {r t : Roster d budget} {l : Leg d} {rest : List (Leg d)}

/-- Every branch has its first errands behind it, and the next one under way if it is not at its end. Everything that
was dispatched is accounted for, under its number. -/
structure Accounts (branches : List (List (Errand d))) (r : Roster d budget) : Prop where
  count : r.lanes.length = branches.length
  lanes : ∀ (i : Nat) (b : List (Errand d)) (lane : Lane d), branches[i]? = some b → r.lanes[i]? = some lane →
    lane.Reports b (Leg.indices i r.folded) (Leg.indices i r.pending)
  calls : (r.folded ++ r.pending).Perm r.calls
  seqs : r.calls.map Leg.seq = List.range r.calls.length
  on : ∀ l ∈ r.calls, l.On branches

theorem Accounts.of_perm (h : r.Accounts branches) (hl : t.lanes = r.lanes) (hf : t.folded = r.folded)
    (hp : t.pending.Perm r.pending) (hc : t.calls = r.calls) : t.Accounts branches := by
  refine ⟨hl ▸ h.count, ?_, ?_, ?_, ?_⟩
  · intro i b lane hb hlane
    rw [hl] at hlane
    rw [hf]
    exact (h.lanes i b lane hb hlane).perm (Leg.indices_perm hp)
  · rw [hf, hc]
    exact (hp.append_left _).trans h.calls
  · rw [hc]
    exact h.seqs
  · rw [hc]
    exact h.on

theorem Accounts.on_of_mem_pending (h : r.Accounts branches) (hl : l ∈ r.pending) : l.On branches :=
  h.on l (h.calls.subset (List.mem_append_right _ hl))

theorem Accounts.exists_branch (h : r.Accounts branches) {i : Nat} {lane : Lane d} (hl : r.lanes[i]? = some lane) :
    ∃ b, branches[i]? = some b := by
  obtain ⟨hi, -⟩ := List.getElem?_eq_some_iff.mp hl
  rw [h.count] at hi
  exact ⟨_, List.getElem?_eq_getElem hi⟩

theorem Accounts.exists_lane (h : r.Accounts branches) {i : Nat} {b : List (Errand d)} (hb : branches[i]? = some b) :
    ∃ lane, r.lanes[i]? = some lane ∧ lane.Reports b (Leg.indices i r.folded) (Leg.indices i r.pending) := by
  have hi : i < r.lanes.length := by
    rw [h.count]
    exact (List.getElem?_eq_some_iff.mp hb).1
  exact ⟨_, List.getElem?_eq_getElem hi, h.lanes i b _ hb (List.getElem?_eq_getElem hi)⟩

theorem pending_absorb (hb : r.batch = l :: rest) : r.pending = l :: (r.absorb l rest).pending := by
  simp only [pending, absorb, hb, List.cons_append]

theorem folded_absorb (r : Roster d budget) (l : Leg d) (rest : List (Leg d)) :
    (r.absorb l rest).folded = r.folded ++ [l] := by
  simp only [folded, absorb, List.append_assoc]

theorem Accounts.absorb (h : r.Accounts branches) (hb : r.batch = l :: rest) :
    (r.absorb l rest).Accounts branches := by
  have hp := pending_absorb hb
  have hon : l.On branches := h.on_of_mem_pending (hp ▸ List.mem_cons_self)
  refine ⟨?_, ?_, ?_, h.seqs, h.on⟩
  · rw [Roster.absorb, List.length_set, h.count]
  · intro i b lane hbr hlane
    rw [folded_absorb, Leg.indices_append]
    by_cases hli : l.lane = i
    · subst hli
      obtain ⟨old, hold, hr⟩ := h.exists_lane hbr
      rw [hp, Leg.indices_cons_self rfl] at hr
      rw [Roster.absorb, List.getElem?_set_self (List.getElem?_eq_some_iff.mp hold).1] at hlane
      cases hlane
      rw [Leg.On, hbr] at hon
      rw [Leg.indices_cons_self rfl]
      exact hr.of (Option.some.inj hon)
    · rw [Roster.absorb, List.getElem?_set_ne hli] at hlane
      have hr := h.lanes i b lane hbr hlane
      rw [hp, Leg.indices_cons_of_ne hli] at hr
      rw [Leg.indices_cons_of_ne hli, Leg.indices_eq_nil (List.forall_mem_nil _), List.append_nil]
      exact hr
  · have hc := h.calls
    rw [hp] at hc
    rw [folded_absorb, List.append_assoc, List.singleton_append]
    exact hc

theorem pending_dispatch (r : Roster d budget) :
    r.dispatch.pending.Perm (r.pending ++ Lane.launch r.state 0 r.calls.length r.lanes) := by
  simp only [pending, dispatch, List.append_assoc]
  refine List.Perm.append_left _ (List.Perm.append_left _ ?_)
  rw [← List.append_assoc (r.timed.map _)]
  exact List.perm_append_comm

theorem Accounts.dispatch (h : r.Accounts branches) : r.dispatch.Accounts branches := by
  have hp := r.pending_dispatch
  refine ⟨?_, ?_, ?_, ?_, ?_⟩
  · rw [Roster.dispatch, List.length_map, h.count]
  · intro i b lane hb hlane
    have ha := Leg.indices_perm (i := i) hp
    obtain ⟨old, hold, rfl⟩ : ∃ old, r.lanes[i]? = some old ∧ old.launched = lane := by
      rwa [Roster.dispatch, List.getElem?_map, Option.map_eq_some_iff] at hlane
    have hn : Leg.indices i (Lane.launch r.state 0 r.calls.length r.lanes) = old.upcoming := by
      rw [← Nat.zero_add i, Lane.indices_launch, hold]
      rfl
    rw [Leg.indices_append, hn] at ha
    exact (h.lanes i b old hb hold).launched.perm ha
  · refine (hp.append_left _).trans ?_
    rw [← List.append_assoc]
    exact h.calls.append_right _
  · simp only [Roster.dispatch, List.map_append, List.length_append]
    rw [h.seqs, Lane.seqs_launch, List.range_eq_range', List.range_eq_range', ← List.range'_append_1, Nat.zero_add]
  · intro l hl
    rcases List.mem_append.mp hl with hl | hl
    · exact h.on l hl
    · obtain ⟨i, hi, hlane⟩ := Lane.mem_launch hl
      obtain ⟨b, hb⟩ := h.exists_branch hlane
      rw [Leg.On, hi, Nat.zero_add, hb]
      cases h.lanes i b _ hb hlane with
      | ready he _ _ => rw [he]

theorem ready_not_mem_dispatch (r : Roster d budget) (before : List (Errand d)) (errand : Errand d)
    (after : List (Errand d)) : Lane.ready before errand after ∉ r.dispatch.lanes := by
  intro hm
  obtain ⟨lane, -, he⟩ := List.mem_map.mp hm
  cases lane <;> cases he

/-- Folding a leg makes its branch ready for what comes after it, and no other branch. -/
theorem ready_of_mem_absorb {before after : List (Errand d)} {errand : Errand d}
    (hm : Lane.ready before errand after ∈ (r.absorb l rest).lanes) :
    Lane.ready before errand after ∈ r.lanes ∨ before = l.before ++ [l.errand] := by
  refine (List.mem_or_eq_of_mem_set hm).imp_right fun he => ?_
  cases ha : l.after with
  | nil =>
    rw [ha] at he
    cases he
  | cons e more =>
    rw [ha] at he
    cases he
    rfl

theorem accounts_blank (budget : Budget) (race : Bool) (s : State) (branches : List (List (Errand d))) :
    (blank budget race s branches).Accounts branches := by
  refine ⟨List.length_map _, ?_, .refl _, rfl, List.forall_mem_nil _⟩
  intro i b lane hb hlane
  rw [blank, List.getElem?_map, hb] at hlane
  cases hlane
  cases b with
  | nil => exact .done rfl rfl
  | cons errand after => exact .ready rfl rfl rfl

theorem Accounts.mem_calls_of_mem_folded (h : r.Accounts branches) (hl : l ∈ r.folded) : l ∈ r.calls :=
  h.calls.subset (List.mem_append_left _ hl)

theorem Accounts.seq_lt (h : r.Accounts branches) (hl : l ∈ r.calls) : l.seq < r.calls.length := by
  have hm : l.seq ∈ r.calls.map Leg.seq := List.mem_map_of_mem hl
  rw [h.seqs] at hm
  exact List.mem_range.mp hm

theorem Accounts.nodup_seqs (h : r.Accounts branches) : ((r.folded ++ r.pending).map Leg.seq).Nodup := by
  rw [(h.calls.map Leg.seq).nodup_iff, h.seqs]
  exact List.nodup_range

theorem perm_sorted (r : Roster d budget) : r.sorted.Perm r.batch := List.perm_insertionSort _ _

theorem Accounts.pairwise_sorted (h : r.Accounts branches) : r.sorted.Pairwise (·.seq < ·.seq) := by
  have hs : r.sorted.Pairwise (·.seq ≤ ·.seq) := List.pairwise_insertionSort _ _
  have hn : (r.sorted.map Leg.seq).Nodup := by
    rw [(r.perm_sorted.map Leg.seq).nodup_iff]
    refine h.nodup_seqs.sublist (List.Sublist.map _ (List.sublist_append_of_sublist_right ?_))
    simp only [pending, List.append_assoc]
    exact List.sublist_append_left _ _
  rw [List.Nodup, List.pairwise_map] at hn
  exact (hs.and hn).imp fun hab => lt_of_le_of_ne hab.1 hab.2

theorem Accounts.nodup_lanes (h : r.Accounts branches) : (r.pending.map Leg.lane).Nodup := by
  refine List.nodup_iff_count_le_one.mpr fun i => ?_
  rw [Leg.count_lanes]
  by_cases hi : i < branches.length
  · obtain ⟨lane, -, hr⟩ := h.exists_lane (List.getElem?_eq_getElem hi)
    exact hr.length_ahead_le
  · have hn : ∀ l ∈ r.pending, l.lane ≠ i := by
      rintro l hl rfl
      exact hi (List.getElem?_eq_some_iff.mp (h.on_of_mem_pending hl)).1
    rw [Leg.indices_eq_nil hn]
    exact Nat.zero_le _

theorem Accounts.length_pending_le (h : r.Accounts branches) : r.pending.length ≤ branches.length := by
  have hs : (r.pending.map Leg.lane).Subperm (List.range branches.length) := by
    refine List.subperm_of_subset h.nodup_lanes ?_
    intro i hi
    obtain ⟨l, hl, rfl⟩ := List.mem_map.mp hi
    exact List.mem_range.mpr (List.getElem?_eq_some_iff.mp (h.on_of_mem_pending hl)).1
  simpa using hs.length_le

end Roster

end Agenda
