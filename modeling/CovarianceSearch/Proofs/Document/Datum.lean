import CovarianceSearch.Document.Field
import Mathlib

namespace CovarianceSearch

namespace Datum

mutual

/-- Whether whole numbers have 64 bits and every table has different keys. -/
def Fits : Datum → Prop
  | .integer n => Int64.minValue.toInt ≤ n ∧ n < UInt64.size
  | .list items => ItemsFit items
  | .table fields => (fields.map (·.1)).Nodup ∧ FieldsFit fields
  | _ => True

def ItemsFit : List Datum → Prop
  | [] => True
  | d :: ds => d.Fits ∧ ItemsFit ds

def FieldsFit : List (String × Datum) → Prop
  | [] => True
  | (_, d) :: fields => d.Fits ∧ FieldsFit fields

end

mutual

def nesting : Datum → ℕ
  | .list items => itemNesting items + 1
  | .table fields => fieldNesting fields + 1
  | _ => 0

def itemNesting : List Datum → ℕ
  | [] => 0
  | d :: ds => max d.nesting (itemNesting ds)

def fieldNesting : List (String × Datum) → ℕ
  | [] => 0
  | (_, d) :: fields => max d.nesting (fieldNesting fields)

end

mutual

/-- A datum with null for every real number that is not finite. -/
def settled : Datum → Datum
  | .real x => if x.isFinite then .real x else .null
  | .list items => .list (settledItems items)
  | .table fields => .table (settledFields fields)
  | d => d

def settledItems : List Datum → List Datum
  | [] => []
  | d :: ds => d.settled :: settledItems ds

def settledFields : List (String × Datum) → List (String × Datum)
  | [] => []
  | (k, d) :: fields => (k, d.settled) :: settledFields fields

end

mutual

def reals : Datum → List Float
  | .real x => [x]
  | .list items => itemReals items
  | .table fields => fieldReals fields
  | _ => []

def itemReals : List Datum → List Float
  | [] => []
  | d :: ds => reals d ++ itemReals ds

def fieldReals : List (String × Datum) → List Float
  | [] => []
  | (_, d) :: fields => reals d ++ fieldReals fields

end

variable {α : Type} {n : ℕ} {items : List Datum} {fields : List (String × Datum)}

theorem itemsFit_iff : ItemsFit items ↔ ∀ d ∈ items, d.Fits := by
  induction items with
  | nil => simp [ItemsFit]
  | cons d ds ih => rw [ItemsFit, ih, List.forall_mem_cons]

theorem itemNesting_le_iff : itemNesting items ≤ n ↔ ∀ d ∈ items, d.nesting ≤ n := by
  induction items with
  | nil => simp [itemNesting]
  | cons d ds ih => rw [itemNesting, Nat.max_le, ih, List.forall_mem_cons]

theorem settledItems_eq_map (items : List Datum) : settledItems items = items.map settled := by
  induction items with
  | nil => rfl
  | cons d ds ih => rw [settledItems, ih, List.map_cons]

theorem itemReals_eq_flatMap (items : List Datum) : itemReals items = items.flatMap reals := by
  induction items with
  | nil => rfl
  | cons d ds ih => rw [itemReals, ih, List.flatMap_cons]

theorem fieldsFit_iff : FieldsFit fields ↔ ∀ field ∈ fields, field.2.Fits := by
  induction fields with
  | nil => simp [FieldsFit]
  | cons field fields ih => rw [FieldsFit, ih, List.forall_mem_cons]

theorem fieldNesting_le_iff :
    fieldNesting fields ≤ n ↔ ∀ field ∈ fields, field.2.nesting ≤ n := by
  induction fields with
  | nil => simp [fieldNesting]
  | cons field fields ih => rw [fieldNesting, Nat.max_le, ih, List.forall_mem_cons]

theorem settledFields_eq_map (fields : List (String × Datum)) :
    settledFields fields = fields.map fun field ↦ (field.1, field.2.settled) := by
  induction fields with
  | nil => rfl
  | cons field fields ih => rw [settledFields, ih, List.map_cons]

theorem settled_list (items : List Datum) : (list items).settled = .list (items.map settled) := by
  rw [settled, settledItems_eq_map]

theorem settled_table (fields : List (String × Datum)) :
    (table fields).settled = .table (fields.map fun field ↦ (field.1, field.2.settled)) := by
  rw [settled, settledFields_eq_map]

theorem fieldReals_eq_flatMap (fields : List (String × Datum)) :
    fieldReals fields = fields.flatMap fun field ↦ field.2.reals := by
  induction fields with
  | nil => rfl
  | cons field fields ih => rw [fieldReals, ih, List.flatMap_cons]

@[elab_as_elim]
theorem induction {p : Datum → Prop} (null : p .null) (bool : ∀ b, p (.bool b))
    (integer : ∀ n, p (.integer n)) (real : ∀ x, p (.real x)) (text : ∀ s, p (.text s))
    (list : ∀ items, (∀ d ∈ items, p d) → p (.list items))
    (table : ∀ fields, (∀ field ∈ fields, p field.2) → p (.table fields)) (d : Datum) : p d :=
  @Datum.rec p (fun items ↦ ∀ d ∈ items, p d) (fun fields ↦ ∀ field ∈ fields, p field.2)
    (fun field ↦ p field.2) null bool integer real text list table nofun
    (fun _ _ hd hds ↦ List.forall_mem_cons.2 ⟨hd, hds⟩) nofun
    (fun _ _ hfield hfields ↦ List.forall_mem_cons.2 ⟨hfield, hfields⟩) (fun _ _ hd ↦ hd) d

theorem isFinite_of_mem_reals_settled (d : Datum) : ∀ x ∈ d.settled.reals, x.isFinite := by
  induction d using induction with
  | real x =>
    rw [settled]
    split
    · next hx => simpa [reals] using hx
    · exact nofun
  | list items ih =>
    rw [settled_list, reals, itemReals_eq_flatMap, List.flatMap_map]
    exact List.forall_mem_flatMap.2 ih
  | table fields ih =>
    rw [settled_table, reals, fieldReals_eq_flatMap, List.flatMap_map]
    exact List.forall_mem_flatMap.2 ih
  | _ => exact nofun

theorem settled_eq_self (d : Datum) (h : ∀ x ∈ d.reals, x.isFinite) : d.settled = d := by
  induction d using induction with
  | real x => exact if_pos (h x List.mem_cons_self)
  | list items ih =>
    rw [reals, itemReals_eq_flatMap, List.forall_mem_flatMap] at h
    rw [settled_list, List.map_congr_left fun d hd ↦ ih d hd (h d hd), List.map_id']
  | table fields ih =>
    rw [reals, fieldReals_eq_flatMap, List.forall_mem_flatMap] at h
    have hfields : ∀ field ∈ fields, (field.1, field.2.settled) = field := fun field hfield ↦ by
      rw [ih field hfield (h field hfield)]
    rw [settled_table, List.map_congr_left hfields, List.map_id']
  | _ => rfl

theorem nesting_settled (d : Datum) : d.settled.nesting = d.nesting := by
  have hitems (items : List Datum) (ih : ∀ d ∈ items, d.settled.nesting = d.nesting) :
      itemNesting (items.map settled) = itemNesting items := by
    induction items with
    | nil => rfl
    | cons d ds ihds =>
      obtain ⟨hd, hds⟩ := List.forall_mem_cons.1 ih
      rw [List.map_cons, itemNesting, itemNesting, hd, ihds hds]
  have hfields (fields : Fields)
      (ih : ∀ field ∈ fields, field.2.settled.nesting = field.2.nesting) :
      fieldNesting (fields.map fun field ↦ (field.1, field.2.settled)) = fieldNesting fields := by
    induction fields with
    | nil => rfl
    | cons field fields ihfields =>
      obtain ⟨hfield, hrest⟩ := List.forall_mem_cons.1 ih
      rw [List.map_cons, fieldNesting, fieldNesting, hfield, ihfields hrest]
  induction d using induction with
  | real x => rw [settled]; split <;> rfl
  | list items ih => rw [settled_list, nesting, nesting, hitems items ih]
  | table fields ih => rw [settled_table, nesting, nesting, hfields fields ih]
  | _ => rfl

theorem Fits.settled {d : Datum} (h : d.Fits) : d.settled.Fits := by
  induction d using induction with
  | real x => rw [Datum.settled]; split <;> trivial
  | list items ih =>
    rw [settled_list, Fits, itemsFit_iff, List.forall_mem_map]
    exact fun d hd ↦ ih d hd (itemsFit_iff.1 h d hd)
  | table fields ih =>
    obtain ⟨hnodup, hfields⟩ := h
    rw [settled_table, Fits, List.map_map, fieldsFit_iff, List.forall_mem_map]
    exact ⟨hnodup, fun field hfield ↦ ih field hfield (fieldsFit_iff.1 hfields field hfield)⟩
  | _ => exact h

theorem fits_of_fitsWord {i : ℤ} (h : fitsWord i) : (integer i).Fits := by
  rw [fitsWord, Bool.and_eq_true, decide_eq_true_eq, decide_eq_true_eq] at h
  have hmax : Int64.maxValue.toInt < UInt64.size := by decide
  exact ⟨h.1, h.2.trans_lt hmax⟩

theorem natural?_natCast (h : n < UInt64.size) : natural? (.integer n) = some n := by
  rw [natural?, if_pos ⟨Int.natCast_nonneg n, Int.ofNat_lt.2 h⟩, Int.toNat_natCast]

theorem fits_natCast (h : n < UInt64.size) : (integer n).Fits := by
  have hmin : Int64.minValue.toInt ≤ 0 := by decide
  exact ⟨hmin.trans (Int.natCast_nonneg n), Int.ofNat_lt.2 h⟩

theorem real?_settled {x y : Float} (h : (Datum.real x).settled.real? = some y) : x.isFinite := by
  by_contra hx
  rw [settled, if_neg hx] at h
  cases h

section

variable {β : Type} {f : β → Option α} {xs : List α} {bs : List β}

theorem mapM_cons_eq_some {b : β} {x : α} (hx : f b = some x) (hxs : bs.mapM f = some xs) :
    (b :: bs).mapM f = some (x :: xs) := by
  rw [List.mapM_cons, hx, hxs]
  rfl

theorem mapM_map_eq_some {g : α → β} (h : ∀ x ∈ xs, f (g x) = some x) :
    (xs.map g).mapM f = some xs := by
  induction xs with
  | nil => rfl
  | cons x xs ih =>
    obtain ⟨hx, hxs⟩ := List.forall_mem_cons.1 h
    exact mapM_cons_eq_some hx (ih hxs)

theorem exists_of_mapM_eq_some (h : bs.mapM f = some xs) : ∀ b ∈ bs, ∃ x, f b = some x := by
  induction bs generalizing xs with
  | nil => exact nofun
  | cons b bs ih =>
    rw [List.mapM_cons] at h
    obtain ⟨x, hx, h⟩ := Option.bind_eq_some_iff.1 h
    obtain ⟨xs, hxs, -⟩ := Option.bind_eq_some_iff.1 h
    exact List.forall_mem_cons.2 ⟨⟨x, hx⟩, ih hxs⟩

end

theorem keys_settledFields (fields : List (String × Datum)) :
    (settledFields fields).map (·.1) = fields.map (·.1) := by
  induction fields with
  | nil => rfl
  | cons field fields ih => rw [settledFields, List.map_cons, List.map_cons, ih]

theorem setField_of_notMem {key : String} {value : α} {fields : List (String × α)}
    (h : key ∉ fields.map (·.1)) : setField key value fields = fields ++ [(key, value)] := by
  induction fields with
  | nil => rfl
  | cons field fields ih =>
    rw [List.map_cons, List.mem_cons, not_or] at h
    rw [setField, if_neg (Ne.symm h.1), ih h.2, List.cons_append]

theorem setField_append_self {key : String} {value value' : α} {before : List (String × α)}
    (h : key ∉ before.map (·.1)) :
    setField key value' (before ++ [(key, value)]) = before ++ [(key, value')] := by
  induction before with
  | nil => rw [List.nil_append, setField, if_pos rfl]; rfl
  | cons field before ih =>
    rw [List.map_cons, List.mem_cons, not_or] at h
    rw [List.cons_append, setField, if_neg (Ne.symm h.1), ih h.2]
    rfl

theorem lookup_eq_none_of_notMem {key : String} {fields : List (String × α)}
    (h : key ∉ fields.map (·.1)) : fields.lookup key = none := by
  rw [List.lookup_eq_none_iff]
  intro field hfield
  rw [bne_iff_ne]
  intro heq
  exact h (heq ▸ List.mem_map_of_mem hfield)

theorem lookup_of_mem {key : String} {value : α} {fields : List (String × α)}
    (hnodup : (fields.map (·.1)).Nodup) (h : (key, value) ∈ fields) :
    fields.lookup key = some value := by
  induction fields with
  | nil => cases h
  | cons field fields ih =>
    obtain ⟨hnew, hnodup⟩ := List.nodup_cons.1 hnodup
    cases h with
    | head => exact List.lookup_cons_self
    | tail _ h =>
      have hne : key ≠ field.1 := fun heq ↦ hnew (List.mem_map.2 ⟨_, h, heq⟩)
      rw [List.lookup_cons, beq_eq_false_iff_ne.2 hne]
      exact ih hnodup h

theorem foldl_setField (before fields : List (String × Datum))
    (h : ((before ++ fields).map (·.1)).Nodup) :
    fields.foldl (fun fields (k, d) ↦ setField k d fields) before = before ++ fields := by
  induction fields generalizing before with
  | nil => rw [List.foldl_nil, List.append_nil]
  | cons field fields ih =>
    obtain ⟨key, d⟩ := field
    have hnotMem : key ∉ before.map (·.1) := by
      intro hmem
      rw [List.map_append, List.nodup_append] at h
      exact h.2.2 key hmem key (by simp) rfl
    rw [List.foldl_cons]
    dsimp only
    rw [setField_of_notMem hnotMem, ih _ (by simpa using h), List.append_assoc]
    rfl

theorem ofPairs_of_nodup {fields : List (String × Datum)} (h : (fields.map (·.1)).Nodup) :
    ofPairs fields = .table fields := by
  rw [ofPairs, foldl_setField [] fields h, List.nil_append]

end Datum

namespace Fields

variable {α : Type} {name key : String} {d : Datum} {fields : Fields} {value? : Datum → Option α}

@[simp] theorem required?_cons_self :
    required? ((name, d) :: fields) name value? = value? d := by
  rw [required?, List.lookup_cons_self, Option.bind_some]

@[simp] theorem required?_cons_of_ne (h : name ≠ key) :
    required? ((key, d) :: fields) name value? = required? fields name value? := by
  rw [required?, List.lookup_cons, beq_eq_false_iff_ne.2 h, required?]

@[simp] theorem optional?_cons_self :
    optional? ((name, d) :: fields) name value? = d.optional? value? := by
  rw [optional?, List.lookup_cons_self, Option.getD_some]

@[simp] theorem optional?_cons_of_ne (h : name ≠ key) :
    optional? ((key, d) :: fields) name value? = optional? fields name value? := by
  rw [optional?, List.lookup_cons, beq_eq_false_iff_ne.2 h, optional?]

end Fields

end CovarianceSearch
