import Mathlib
import Agenda.Proofs.Prediction
import Agenda.Proofs.StateRoundTrip

/-!
# Equality up to the order of fields

Two records are compared by looking up the fields of the one in the other, which says nothing about the fields that only
the other one has; that their number is the same makes up for it. On values without floating-point numbers this is an
equivalence, and it is no other than this: two values are equal if the one becomes the other by putting the fields of
records, at any depth, in another order.
-/

namespace Agenda

set_option autoImplicit false

theorem Fields.get?_of_mem {α : Type} {fields : Fields α} (hn : fields.keys.Nodup) {entry : String × α}
    (h : entry ∈ fields) : fields.get? entry.1 = some entry.2 := by
  induction fields with
  | nil => cases h
  | cons first rest ih =>
    obtain ⟨hf, hr⟩ := List.nodup_cons.mp hn
    rw [get?]
    rcases List.mem_cons.mp h with rfl | h
    · exact if_pos rfl
    · have hne : first.1 ≠ entry.1 := fun he => hf (List.mem_map.mpr ⟨entry, h, he.symm⟩)
      rw [if_neg hne]
      exact ih hr h

namespace Value

/-! ### Values without floating-point numbers -/

def isSingle : Value → Bool
  | .null => true
  | .bool _ => true
  | .int _ => true
  | .text _ => true
  | _ => false

/-- There is no floating-point number in the value, and its records are maps: none has two fields of one name. -/
inductive Plain : Value → Prop
  | single {v : Value} : v.isSingle = true → Plain v
  | list {items : List Value} : (∀ v ∈ items, Plain v) → Plain (.list items)
  | record {fields : Fields Value} : fields.keys.Nodup → (∀ f ∈ fields, Plain f.2) → Plain (.record fields)

theorem plain_list_iff (items : List Value) : (list items).Plain ↔ ∀ v ∈ items, v.Plain := by
  refine ⟨fun h => ?_, .list⟩
  cases h with
  | single h => cases h
  | list h => exact h

theorem plain_record_iff (fields : Fields Value) :
    (record fields).Plain ↔ fields.keys.Nodup ∧ ∀ f ∈ fields, f.2.Plain := by
  refine ⟨fun h => ?_, fun h => .record h.1 h.2⟩
  cases h with
  | single h => cases h
  | record hn h => exact ⟨hn, h⟩

theorem not_plain_float (x : Float) : ¬(float x).Plain := by
  rintro ⟨⟨⟩⟩

mutual
theorem plain_of_floats : ∀ v : Value, v.floats = [] → v.wellNamed = true → v.Plain
  | .null, _, _ => .single rfl
  | .bool _, _, _ => .single rfl
  | .int _, _, _ => .single rfl
  | .float _, h, _ => by cases h
  | .text _, _, _ => .single rfl
  | .list items, h, hn => .list (plain_of_floatsOfItems items h hn)
  | .record fields, h, hn =>
    have hn := Bool.and_eq_true_iff.mp hn
    .record (of_decide_eq_true hn.1) (plain_of_floatsOfFields fields h hn.2)

theorem plain_of_floatsOfItems : ∀ items : List Value, floatsOfItems items = [] → itemsWellNamed items = true →
    ∀ v ∈ items, v.Plain
  | [], _, _ => List.forall_mem_nil _
  | v :: rest, h, hn =>
    have h := List.append_eq_nil_iff.mp h
    have hn := Bool.and_eq_true_iff.mp hn
    List.forall_mem_cons.mpr ⟨plain_of_floats v h.1 hn.1, plain_of_floatsOfItems rest h.2 hn.2⟩

theorem plain_of_floatsOfFields : ∀ fields : Fields Value, floatsOfFields fields = [] →
    fieldsWellNamed fields = true → ∀ f ∈ fields, f.2.Plain
  | [], _, _ => List.forall_mem_nil _
  | (_, v) :: rest, h, hn =>
    have h := List.append_eq_nil_iff.mp h
    have hn := Bool.and_eq_true_iff.mp hn
    List.forall_mem_cons.mpr ⟨plain_of_floats v h.1 hn.1, plain_of_floatsOfFields rest h.2 hn.2⟩
end

/-! ### What equality compares -/

theorem equals_list_iff (as bs : List Value) :
    (list as).equals (list bs) = true ↔ List.Forall₂ (fun a b => a.equals b = true) as bs := by
  rw [equals]
  induction as generalizing bs with
  | nil => cases bs <;> simp [equalItems]
  | cons a as ih => cases bs <;> simp [equalItems, ih]

theorem equalFields_iff (as bs : Fields Value) :
    equalFields as bs = true ↔ ∀ f ∈ as, ∃ b, bs.get? f.1 = some b ∧ f.2.equals b = true := by
  induction as with
  | nil => exact ⟨fun _ => List.forall_mem_nil _, fun _ => rfl⟩
  | cons first rest ih =>
    rw [equalFields, Bool.and_eq_true_iff, ih, List.forall_mem_cons]
    cases bs.get? first.1 with
    | none => simp
    | some b => simp

theorem equals_record_iff (as bs : Fields Value) :
    (record as).equals (record bs) = true ↔
      as.length = bs.length ∧ ∀ f ∈ as, ∃ b, bs.get? f.1 = some b ∧ f.2.equals b = true := by
  rw [equals, Bool.and_eq_true_iff, beq_iff_eq, equalFields_iff]

theorem eq_of_equals {a b : Value} (ha : a.isSingle = true) (h : a.equals b = true) : a = b := by
  cases a with
  | null =>
    cases b with
    | null => rfl
    | _ => cases h
  | bool x =>
    cases b with
    | bool y => exact congrArg bool (eq_of_beq h)
    | _ => cases h
  | int m =>
    cases b with
    | int n => exact congrArg int (eq_of_beq h)
    | _ => cases h
  | text s =>
    cases b with
    | text t => exact congrArg text (eq_of_beq h)
    | _ => cases h
  | _ => cases ha

theorem exists_of_list_equals {as : List Value} {b : Value} (h : (list as).equals b = true) :
    ∃ bs, b = list bs ∧ List.Forall₂ (fun a b => a.equals b = true) as bs := by
  cases b with
  | list bs => exact ⟨bs, rfl, (equals_list_iff as bs).mp h⟩
  | _ => cases h

theorem exists_of_record_equals {as : Fields Value} {b : Value} (h : (record as).equals b = true) :
    ∃ bs : Fields Value, b = record bs ∧ as.length = bs.length ∧
      ∀ f ∈ as, ∃ b, bs.get? f.1 = some b ∧ f.2.equals b = true := by
  cases b with
  | record bs => exact ⟨bs, rfl, (equals_record_iff as bs).mp h⟩
  | _ => cases h

theorem forall₂_trans {R : Value → Value → Prop} {as bs cs : List Value} (hab : List.Forall₂ R as bs)
    (hbc : List.Forall₂ R bs cs) (ht : ∀ a ∈ as, ∀ b c, R a b → R b c → R a c) : List.Forall₂ R as cs := by
  induction hab generalizing cs with
  | nil => exact hbc
  | cons hx _ ih =>
    obtain ⟨ha, hr⟩ := List.forall_mem_cons.mp ht
    cases hbc with
    | cons hy hbc => exact .cons (ha _ _ hx hy) (ih hbc hr)

theorem Plain.equals_refl {v : Value} (h : v.Plain) : v.equals v = true := by
  induction h with
  | @single v h =>
    cases v with
    | null => rfl
    | bool b => exact beq_self_eq_true b
    | int n => exact beq_self_eq_true n
    | text s => exact beq_self_eq_true s
    | _ => cases h
  | list _ ih =>
    rw [equals_list_iff, List.forall₂_same]
    exact ih
  | record hn _ ih =>
    rw [equals_record_iff]
    exact ⟨rfl, fun f hf => ⟨f.2, Fields.get?_of_mem hn hf, ih f hf⟩⟩

theorem Plain.equals_trans {a b c : Value} (ha : a.Plain) (h : a.equals b = true) (h' : b.equals c = true) :
    a.equals c = true := by
  induction ha generalizing b c with
  | single hs =>
    obtain rfl := eq_of_equals hs h
    exact h'
  | @list as _ ih =>
    obtain ⟨bs, rfl, hab⟩ := exists_of_list_equals h
    obtain ⟨cs, rfl, hbc⟩ := exists_of_list_equals h'
    exact (equals_list_iff as cs).mpr (forall₂_trans hab hbc fun a ha b c => ih a ha)
  | @record as _ _ ih =>
    obtain ⟨bs, rfl, hl, hab⟩ := exists_of_record_equals h
    obtain ⟨cs, rfl, hl', hbc⟩ := exists_of_record_equals h'
    rw [equals_record_iff]
    refine ⟨hl.trans hl', fun f hf => ?_⟩
    -- from name to name: what is found in the middle is a field there, and is looked up in turn
    obtain ⟨b, hb, hfb⟩ := hab f hf
    obtain ⟨c, hc, hbc⟩ := hbc _ (Fields.mem_of_get? hb)
    exact ⟨c, hc, ih f hf hfb hbc⟩

/-! ### Fields in another order -/

/-- The same value, but for the order of fields in its records and in those inside it. -/
inductive Reordered : Value → Value → Prop
  | refl (v : Value) : Reordered v v
  | trans {u v w : Value} : Reordered u v → Reordered v w → Reordered u w
  | fields {as bs : Fields Value} : as.Perm bs → Reordered (.record as) (.record bs)
  | inField {v w : Value} (front : Fields Value) (name : String) (back : Fields Value) : Reordered v w →
      Reordered (.record (front ++ (name, v) :: back)) (.record (front ++ (name, w) :: back))
  | inItem {v w : Value} (front back : List Value) : Reordered v w →
      Reordered (.list (front ++ v :: back)) (.list (front ++ w :: back))

theorem Reordered.symm {v w : Value} (h : v.Reordered w) : w.Reordered v := by
  induction h with
  | refl v => exact .refl v
  | trans _ _ ih ih' => exact .trans ih' ih
  | fields h => exact .fields h.symm
  | inField front name back _ ih => exact .inField front name back ih
  | inItem front back _ ih => exact .inItem front back ih

theorem record_equals_of_forall {as bs : Fields Value} (hn : bs.keys.Nodup) (hl : as.length = bs.length)
    (h : ∀ f ∈ as, ∃ b, (f.1, b) ∈ bs ∧ f.2.equals b = true) : (record as).equals (record bs) = true := by
  rw [equals_record_iff]
  refine ⟨hl, fun f hf => ?_⟩
  obtain ⟨b, hb, he⟩ := h f hf
  exact ⟨b, Fields.get?_of_mem hn hb, he⟩

/-- Fields in another order make an equal value, and one without floating-point numbers again. -/
theorem Reordered.equals {v w : Value} (h : v.Reordered w) (hv : v.Plain) : w.Plain ∧ v.equals w = true := by
  induction h with
  | refl v => exact ⟨hv, hv.equals_refl⟩
  | trans _ _ ih ih' =>
    obtain ⟨hm, he⟩ := ih hv
    obtain ⟨hw, he'⟩ := ih' hm
    exact ⟨hw, hv.equals_trans he he'⟩
  | @fields as bs hp =>
    obtain ⟨hn, hf⟩ := (plain_record_iff as).mp hv
    have hn' : bs.keys.Nodup := (hp.map _).nodup hn
    refine ⟨.record hn' fun f hm => hf f (hp.mem_iff.mpr hm), record_equals_of_forall hn' hp.length_eq ?_⟩
    exact fun f hm => ⟨f.2, hp.mem_iff.mp hm, (hf f hm).equals_refl⟩
  | @inField v w front name back _ ih =>
    obtain ⟨hn, hf⟩ := (plain_record_iff _).mp hv
    obtain ⟨hfront, hmid, hback⟩ : (∀ f ∈ front, f.2.Plain) ∧ v.Plain ∧ ∀ f ∈ back, f.2.Plain := by
      rwa [List.forall_mem_append, List.forall_mem_cons] at hf
    obtain ⟨hw, he⟩ := ih hmid
    -- the names are the same, so every other field finds itself
    have hn' : (Fields.keys (front ++ (name, w) :: back)).Nodup := by
      rwa [Fields.keys, List.map_append, List.map_cons] at hn ⊢
    refine ⟨.record hn' (List.forall_mem_append.mpr ⟨hfront, List.forall_mem_cons.mpr ⟨hw, hback⟩⟩),
      record_equals_of_forall hn' ?_ ?_⟩
    · rw [List.length_append, List.length_append, List.length_cons, List.length_cons]
    · refine List.forall_mem_append.mpr ⟨fun f hm => ?_, List.forall_mem_cons.mpr ⟨?_, fun f hm => ?_⟩⟩
      · exact ⟨f.2, List.mem_append_left _ hm, (hfront f hm).equals_refl⟩
      · exact ⟨w, List.mem_append_right _ List.mem_cons_self, he⟩
      · exact ⟨f.2, List.mem_append_right _ (List.mem_cons_of_mem _ hm), (hback f hm).equals_refl⟩
  | inItem front back _ ih =>
    rw [plain_list_iff, List.forall_mem_append, List.forall_mem_cons] at hv
    obtain ⟨hfront, hmid, hback⟩ := hv
    obtain ⟨hw, he⟩ := ih hmid
    refine ⟨.list (List.forall_mem_append.mpr ⟨hfront, List.forall_mem_cons.mpr ⟨hw, hback⟩⟩), ?_⟩
    rw [equals_list_iff]
    exact List.rel_append (List.forall₂_same.mpr fun a ha => (hfront a ha).equals_refl)
      (.cons he (List.forall₂_same.mpr fun a ha => (hback a ha).equals_refl))

theorem reordered_list {as bs : List Value} (h : List.Forall₂ Reordered as bs) (front : List Value) :
    (list (front ++ as)).Reordered (list (front ++ bs)) := by
  induction h generalizing front with
  | nil => exact .refl _
  | @cons a b as bs ha _ ih =>
    have hr := ih (front ++ [b])
    rw [List.append_assoc, List.append_assoc] at hr
    exact .trans (.inItem front as ha) hr

def counterparts (bs as : Fields Value) : Fields Value := as.map fun f => (f.1, (bs.get? f.1).getD .null)

theorem reordered_counterparts {as bs : Fields Value}
    (h : ∀ f ∈ as, ∃ b, bs.get? f.1 = some b ∧ f.2.Reordered b) (front : Fields Value) :
    (record (front ++ as)).Reordered (record (front ++ counterparts bs as)) := by
  induction as generalizing front with
  | nil => exact .refl _
  | cons f rest ih =>
    obtain ⟨⟨b, hb, hf⟩, hr⟩ := List.forall_mem_cons.mp h
    have hr := ih hr (front ++ [(f.1, b)])
    rw [List.append_assoc, List.append_assoc] at hr
    have hc : counterparts bs (f :: rest) = (f.1, b) :: counterparts bs rest := by
      rw [counterparts, List.map_cons, hb, Option.getD_some, ← counterparts]
    rw [hc]
    exact .trans (.inField front f.1 rest hf) hr

/-- No field is left over: distinct names make the counterparts distinct, and there are as many of them as fields. -/
theorem counterparts_perm {as bs : Fields Value} (hn : as.keys.Nodup) (hl : as.length = bs.length)
    (h : ∀ f ∈ as, ∃ b, bs.get? f.1 = some b) : (counterparts bs as).Perm bs := by
  have hk : (counterparts bs as).map (·.1) = as.keys := by
    rw [counterparts, List.map_map]
    rfl
  have hd : (counterparts bs as).Nodup := List.Nodup.of_map _ (hk ▸ hn)
  have hs : counterparts bs as ⊆ bs := by
    intro g hg
    obtain ⟨f, hf, rfl⟩ := List.mem_map.mp hg
    obtain ⟨b, hb⟩ := h f hf
    rw [hb, Option.getD_some]
    exact Fields.mem_of_get? hb
  refine (hd.subperm hs).perm_of_length_le ?_
  rw [counterparts, List.length_map, hl]

theorem Plain.reordered_of_equals {a b : Value} (ha : a.Plain) (h : a.equals b = true) : a.Reordered b := by
  induction ha generalizing b with
  | single hs =>
    obtain rfl := eq_of_equals hs h
    exact .refl _
  | @list as _ ih =>
    obtain ⟨bs, rfl, hab⟩ := exists_of_list_equals h
    obtain ⟨hl, hz⟩ := List.forall₂_iff_zip.mp hab
    exact reordered_list (List.forall₂_iff_zip.mpr ⟨hl, fun hm => ih _ (List.of_mem_zip hm).1 (hz hm)⟩) []
  | @record as hn _ ih =>
    obtain ⟨bs, rfl, hl, hab⟩ := exists_of_record_equals h
    have hr : ∀ f ∈ as, ∃ b, bs.get? f.1 = some b ∧ f.2.Reordered b := by
      intro f hf
      obtain ⟨b, hb, he⟩ := hab f hf
      exact ⟨b, hb, ih f hf he⟩
    refine .trans (reordered_counterparts hr []) (.fields (counterparts_perm hn hl fun f hf => ?_))
    obtain ⟨b, hb, -⟩ := hr f hf
    exact ⟨b, hb⟩

theorem Plain.equals_iff {a b : Value} (ha : a.Plain) : a.equals b = true ↔ a.Reordered b :=
  ⟨ha.reordered_of_equals, fun h => (h.equals ha).2⟩

theorem Plain.equals_symm {a b : Value} (ha : a.Plain) (h : a.equals b = true) : b.equals a = true := by
  have hr := ha.reordered_of_equals h
  exact (hr.symm.equals (hr.equals ha).1).2

theorem Plain.looselyEquals_eq {a b : Value} (ha : a.Plain) (hb : b.Plain) : a.looselyEquals b = a.equals b := by
  cases a with
  | float x => exact absurd ha (not_plain_float x)
  | int m =>
    cases b with
    | float x => exact absurd hb (not_plain_float x)
    | _ => rfl
  | _ => rfl

theorem equals_congr {a a' b b' : Value} (ha : a.Plain) (h : a.Reordered a') (h' : b.Reordered b') :
    a.equals b = a'.equals b' := by
  have ha' := (h.equals ha).1
  rw [Bool.eq_iff_iff, ha.equals_iff, ha'.equals_iff]
  exact ⟨fun hr => h.symm.trans (hr.trans h'), fun hr => h.trans (hr.trans h'.symm)⟩

/-- On values without floating-point numbers equality is an equivalence, the same with and without conversion between
numbers, and values are equal just when the one is the other with fields in another order, at any depth. Putting fields
in another order leads to no floating-point numbers, and the operators that compare for equality give the same result
for all orders of the fields on both sides. -/
theorem equal_iff_fields_reordered :
    Equivalence (fun v w : { v : Value // v.Plain } => v.val.equals w.val = true) ∧
    (∀ v w : Value, v.Plain → w.Plain → v.looselyEquals w = v.equals w) ∧
    (∀ v w : Value, v.Plain → (v.equals w = true ↔ v.Reordered w)) ∧
    (∀ v v' w w' : Value, v.Plain → w.Plain → v.Reordered v' → w.Reordered w' →
      v'.Plain ∧ w'.Plain ∧ Operator.eq.apply v w = Operator.eq.apply v' w' ∧
      Operator.ne.apply v w = Operator.ne.apply v' w') := by
  refine ⟨⟨fun v => v.2.equals_refl, fun {v w} h => v.2.equals_symm h, fun {u v w} h h' => u.2.equals_trans h h'⟩,
    fun v w hv hw => hv.looselyEquals_eq hw, fun v w hv => hv.equals_iff, ?_⟩
  intro v v' w w' hv hw h h'
  have hv' := (h.equals hv).1
  have hw' := (h'.equals hw).1
  have he : v.looselyEquals w = v'.looselyEquals w' := by
    rw [hv.looselyEquals_eq hw, hv'.looselyEquals_eq hw', equals_congr hv h h']
  refine ⟨hv', hw', ?_, ?_⟩
  · rw [Operator.apply, Operator.apply, he]
  · rw [Operator.apply, Operator.apply, he]

def loaded : Value :=
  .record [("place", .text "l1"), ("cargo", .list [.record [("order", .int 3), ("fragile", .null)], .bool true])]

def loadedAnew : Value :=
  .record [("cargo", .list [.record [("fragile", .null), ("order", .int 3)], .bool true]), ("place", .text "l1")]

theorem equal_iff_fields_reordered_loaded :
    loaded.Plain ∧ loaded.Reordered loadedAnew ∧ Operator.eq.apply loaded loadedAnew = .ok (.bool true) ∧
    Operator.ne.apply loaded loadedAnew = .ok (.bool false) := by
  have hp : loaded.Plain := plain_of_floats loaded rfl rfl
  obtain ⟨-, -, hiff, hops⟩ := equal_iff_fields_reordered
  have hr : loaded.Reordered loadedAnew := (hiff loaded loadedAnew hp).mp (by cbv)
  obtain ⟨-, -, heq, hne⟩ := hops loaded loaded loaded loadedAnew hp hp (.refl loaded) hr
  exact ⟨hp, hr, heq.symm.trans (by cbv), hne.symm.trans (by cbv)⟩

end Value

end Agenda
