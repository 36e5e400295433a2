import QubitAllocation.Json.Records
import QubitAllocation.Proofs.Json.Document
import QubitAllocation.Proofs.Outcome

/-!
# The order of fields

`JsonValue.Reorders v w` says that `w` is `v` with the fields of objects in another order, of any
number of objects at any depth.

A decoder that finds the fields of an object by their names gives the same for both
(`JsonValue.IgnoresOrder`). That the decoders of all records do follows from what they look at: the
columns of a record are the same up to order again (`JsonValue.Reorders.columns?_eq_some`), and so
are the items of an array (`JsonValue.Reorders.items?_eq_some`). An operation looks at its tag
first, wherever that stands, and at how deep its fields are nested
(`JsonValue.Reorders.holdable_eq`).
-/

set_option autoImplicit false

namespace QubitAllocation

open Outcome

namespace JsonValue

/-- The second document is the first with fields of objects in another order: the fields of one
object may change places, inside an item or a field too, and that any number of times. -/
inductive Reorders : JsonValue → JsonValue → Prop
  | refl (v : JsonValue) : Reorders v v
  | trans {u v w : JsonValue} : Reorders u v → Reorders v w → Reorders u w
  | fields {fields fields' : List (Option String × JsonValue)} : fields.Perm fields' →
      Reorders (.object fields) (.object fields')
  | item {v w : JsonValue} (front back : List JsonValue) : Reorders v w →
      Reorders (.array (front ++ v :: back)) (.array (front ++ w :: back))
  | field {v w : JsonValue} (front back : List (Option String × JsonValue)) (key : Option String) :
      Reorders v w →
      Reorders (.object (front ++ (key, v) :: back)) (.object (front ++ (key, w) :: back))

/-- The decoder gives the same whatever the order of fields. -/
def IgnoresOrder {α : Type} (decode : JsonValue → Option α) : Prop :=
  ∀ ⦃v w : JsonValue⦄, v.Reorders w → decode v = decode w

variable {v w : JsonValue} {fields fields' : List (Option String × JsonValue)}

theorem Reorders.symm (h : v.Reorders w) : w.Reorders v := by
  induction h with
  | refl v => exact .refl v
  | trans _ _ ih ih' => exact .trans ih' ih
  | fields hperm => exact .fields hperm.symm
  | item front back _ ih => exact .item front back ih
  | field front back key _ ih => exact .field front back key ih

/-- It is enough that what is decoded from one order is decoded from the other. -/
theorem ignoresOrder_of_imp {α : Type} {decode : JsonValue → Option α}
    (h : ∀ {v w : JsonValue}, v.Reorders w → ∀ {x}, decode v = some x → decode w = some x) :
    IgnoresOrder decode :=
  fun _ _ hvw => Option.ext fun _ => ⟨h hvw, h hvw.symm⟩

/-! ## What decoders look at -/

theorem ignoresOrder_word? : IgnoresOrder word? := by
  intro v w h
  induction h with
  | trans _ _ ih ih' => exact ih.trans ih'
  | _ => rfl

theorem ignoresOrder_text? : IgnoresOrder text? := by
  intro v w h
  induction h with
  | trans _ _ ih ih' => exact ih.trans ih'
  | _ => rfl

theorem Reorders.exists_object (h : v.Reorders w) (hv : ∃ fields, v = .object fields) :
    ∃ fields, w = .object fields := by
  induction h with
  | refl _ => exact hv
  | trans _ _ ih ih' => exact ih' (ih hv)
  | item =>
    obtain ⟨fields, hfields⟩ := hv
    cases hfields
  | _ => exact ⟨_, rfl⟩

section Lists

variable {α β : Type} {R : α → α → Prop}

theorem forall₂_trans (hR : ∀ a b c : α, R a b → R b c → R a c) {as bs cs : List α}
    (h : List.Forall₂ R as bs) (h' : List.Forall₂ R bs cs) : List.Forall₂ R as cs := by
  induction h generalizing cs with
  | nil => exact h'
  | cons hab _ ih =>
    cases h' with
    | cons hbc hrest => exact .cons (hR _ _ _ hab hbc) (ih hrest)

theorem forall₂_replace (hR : ∀ a, R a a) {a b : α} (hab : R a b) (front back : List α) :
    List.Forall₂ R (front ++ a :: back) (front ++ b :: back) :=
  List.rel_append (List.forall₂_same.2 fun a _ => hR a)
    (.cons hab (List.forall₂_same.2 fun a _ => hR a))

theorem mapM_eq_of_forall₂ {decode : α → Option β} (hdecode : ∀ a b, R a b → decode a = decode b)
    {as bs : List α} (h : List.Forall₂ R as bs) : as.mapM decode = bs.mapM decode := by
  induction h with
  | nil => rfl
  | cons hab _ ih => rw [List.mapM_cons, List.mapM_cons, hdecode _ _ hab, ih]

end Lists

/-- The items of an array are the same up to the order of fields. -/
theorem Reorders.items?_eq_some (h : v.Reorders w) {items : List JsonValue}
    (hv : v.items? = some items) :
    ∃ items', w.items? = some items' ∧ List.Forall₂ Reorders items items' := by
  induction h generalizing items with
  | refl v => exact ⟨items, hv, List.forall₂_same.2 fun v _ => .refl v⟩
  | trans _ _ ih ih' =>
    obtain ⟨items', hitems', hrel⟩ := ih hv
    obtain ⟨items'', hitems'', hrel'⟩ := ih' hitems'
    exact ⟨items'', hitems'', forall₂_trans (fun _ _ _ => .trans) hrel hrel'⟩
  | item front back hvw =>
    cases hv
    exact ⟨_, rfl, forall₂_replace .refl hvw front back⟩
  | _ => cases hv

/-- The list that an array holds, if each of its items can be decoded. -/
def list? {α : Type} (decode : JsonValue → Option α) (v : JsonValue) : Option (List α) :=
  v.items?.bind (List.mapM decode)

/-- A decoder of lists ignores the order of fields if that of the items does. -/
theorem ignoresOrder_list? {α : Type} {decode : JsonValue → Option α} (h : IgnoresOrder decode) :
    IgnoresOrder (list? decode) := by
  apply ignoresOrder_of_imp
  intro v w hvw xs hxs
  obtain ⟨items, hitems, hxs⟩ := Option.bind_eq_some_iff.1 hxs
  obtain ⟨items', hitems', hrel⟩ := hvw.items?_eq_some hitems
  refine Option.bind_eq_some_iff.2 ⟨items', hitems', ?_⟩
  rw [← mapM_eq_of_forall₂ h hrel, hxs]

/-! ## Columns -/

/-- A column of a record, the same up to the order of fields. -/
abbrev SameColumn : Option JsonValue → Option JsonValue → Prop := Option.Rel Reorders

theorem sameColumn_refl (column : Option JsonValue) : SameColumn column column := by
  cases column with
  | none => exact .none
  | some v => exact .some (.refl v)

theorem sameColumn_trans (a b c : Option JsonValue) (hab : SameColumn a b) (hbc : SameColumn b c) :
    SameColumn a c := by
  cases hab with
  | none => exact hbc
  | some hab =>
    cases hbc with
    | some hbc => exact .some (hab.trans hbc)

theorem columns?_object_iff {names : List String} {columns : List (Option JsonValue)} :
    columns? names (.object fields) = some columns ↔
      (∀ key ∈ fields.map Prod.fst, key.isSome = true) ∧
        List.Forall₂ (fun name column => single? fields name = some column) names columns := by
  rw [columns?, ← mapM_eq_some_iff, List.forall_mem_map, ← List.all_eq_true]
  split_ifs with hall
  · simp only [hall, true_and]
  · simp only [hall, reduceCtorEq, false_and]

/-- If every field is the same, so is every column. -/
theorem columns?_object_of_single? {names : List String} {columns : List (Option JsonValue)}
    (hkeys : fields'.map Prod.fst ⊆ fields.map Prod.fst)
    (hsingle : ∀ name column, single? fields name = some column →
      ∃ column', single? fields' name = some column' ∧ SameColumn column column')
    (h : columns? names (.object fields) = some columns) :
    ∃ columns', columns? names (.object fields') = some columns' ∧
      List.Forall₂ SameColumn columns columns' := by
  obtain ⟨hsome, hcolumns⟩ := columns?_object_iff.1 h
  have hsome' : ∀ key ∈ fields'.map Prod.fst, key.isSome = true :=
    fun key hkey => hsome key (hkeys hkey)
  suffices hall : ∃ columns', List.Forall₂ (fun name column => single? fields' name = some column)
      names columns' ∧ List.Forall₂ SameColumn columns columns' by
    obtain ⟨columns', hcolumns', hsame⟩ := hall
    exact ⟨columns', columns?_object_iff.2 ⟨hsome', hcolumns'⟩, hsame⟩
  clear h
  induction hcolumns with
  | nil => exact ⟨[], .nil, .nil⟩
  | cons hcolumn _ ih =>
    obtain ⟨column', hcolumn', hsame⟩ := hsingle _ _ hcolumn
    obtain ⟨columns', hcolumns', hrest⟩ := ih
    exact ⟨column' :: columns', .cons hcolumn' hcolumns', .cons hsame hrest⟩

/-- A column is what the fields of its name hold, of which there is at most one. -/
theorem single?_eq_some_iff {name : String} {column : Option JsonValue} :
    single? fields name = some column ↔
      (fields.filter fun field => field.1 == some name).map Prod.snd = column.toList := by
  unfold single?
  split
  · next hnone => cases column <;> simp [hnone]
  · next field hone => cases column <;> simp [hone]
  · next hnone hone =>
    constructor
    · intro h
      cases h
    · intro h
      cases column with
      | none => exact absurd (List.map_eq_nil_iff.1 h) hnone
      | some v =>
        obtain ⟨field, hfield, -⟩ := List.map_eq_singleton_iff.1 h
        exact absurd hfield (hone field)

theorem single?_of_perm (hperm : fields.Perm fields') {name : String} {column : Option JsonValue}
    (h : single? fields name = some column) : single? fields' name = some column := by
  rw [single?_eq_some_iff] at h ⊢
  have hvalues := (hperm.filter fun field => field.1 == some name).map Prod.snd
  rw [h] at hvalues
  cases column with
  | none => exact List.nil_perm.1 hvalues
  | some v => exact List.perm_singleton.1 hvalues.symm

theorem exists_sameColumn {column : Option JsonValue} {values : List JsonValue}
    (h : List.Forall₂ Reorders column.toList values) :
    ∃ column', values = column'.toList ∧ SameColumn column column' := by
  cases column with
  | none =>
    cases h
    exact ⟨none, rfl, .none⟩
  | some v =>
    obtain ⟨w, rest, hvw, hrest, rfl⟩ := List.forall₂_cons_left_iff.1 h
    cases hrest
    exact ⟨some w, rfl, .some hvw⟩

theorem single?_of_field (front back : List (Option String × JsonValue)) (key : Option String)
    (hvw : v.Reorders w) {name : String} {column : Option JsonValue}
    (h : single? (front ++ (key, v) :: back) name = some column) :
    ∃ column', single? (front ++ (key, w) :: back) name = some column' ∧
      SameColumn column column' := by
  simp only [single?_eq_some_iff, List.filter_append, List.filter_cons, List.map_append] at h ⊢
  -- the value that changes belongs to the column or it does not
  by_cases hkey : key = some name
  · simp only [hkey, beq_self_eq_true, if_true, List.map_cons] at h ⊢
    have hrel := forall₂_replace Reorders.refl hvw
      ((front.filter fun field => field.1 == some name).map Prod.snd)
      ((back.filter fun field => field.1 == some name).map Prod.snd)
    rw [h] at hrel
    exact exists_sameColumn hrel
  · have hne : (key == some name) = false := by simpa using hkey
    simp only [hne, Bool.false_eq_true, if_false] at h ⊢
    exact ⟨column, h, sameColumn_refl column⟩

theorem columns?_array_iff {names : List String} {items : List JsonValue}
    {columns : List (Option JsonValue)} :
    columns? names (.array items) = some columns ↔ items.length ≤ names.length ∧
      items.map some ++ List.replicate (names.length - items.length) none = columns := by
  rw [columns?]
  split_ifs with hlen
  · simp only [hlen, true_and, Option.some.injEq]
  · simp only [hlen, false_and]

/-- **The columns of a record are the same up to the order of fields.** -/
theorem Reorders.columns?_eq_some (h : v.Reorders w) {names : List String}
    {columns : List (Option JsonValue)} (hv : v.columns? names = some columns) :
    ∃ columns', w.columns? names = some columns' ∧ List.Forall₂ SameColumn columns columns' := by
  induction h generalizing columns with
  | refl v => exact ⟨columns, hv, List.forall₂_same.2 fun column _ => sameColumn_refl column⟩
  | trans _ _ ih ih' =>
    obtain ⟨columns', hcolumns', hsame⟩ := ih hv
    obtain ⟨columns'', hcolumns'', hsame'⟩ := ih' hcolumns'
    exact ⟨columns'', hcolumns'', forall₂_trans sameColumn_trans hsame hsame'⟩
  | fields hperm =>
    refine columns?_object_of_single? (hperm.map Prod.fst).symm.subset ?_ hv
    intro name column hcolumn
    exact ⟨column, single?_of_perm hperm hcolumn, sameColumn_refl column⟩
  | @item v w front back hvw =>
    -- an array gives its columns by position, and no item changes its position
    obtain ⟨hlen, rfl⟩ := columns?_array_iff.1 hv
    have hlen' : (front ++ w :: back).length = (front ++ v :: back).length := by simp
    refine ⟨_, columns?_array_iff.2 ⟨hlen'.trans_le hlen, rfl⟩, ?_⟩
    rw [hlen']
    apply List.rel_append
    · rw [List.forall₂_map_left_iff, List.forall₂_map_right_iff]
      exact forall₂_replace (fun v => .some (.refl v)) (.some hvw) front back
    · exact List.forall₂_same.2 fun column _ => sameColumn_refl column
  | field front back key hvw =>
    refine columns?_object_of_single? (by simp) ?_ hv
    intro name column hcolumn
    exact single?_of_field front back key hvw hcolumn

/-! ## Nesting -/

theorem holdableItems_eq_all (depth : Nat) (items : List JsonValue) :
    holdableItems depth items = items.all (holdable depth) := by
  induction items with
  | nil => rw [holdableItems, List.all_nil]
  | cons v items ih => rw [holdableItems, List.all_cons, ih]

theorem holdableFields_eq_all (depth : Nat) (fields : List (Option String × JsonValue)) :
    holdableFields depth fields =
      fields.all fun field => field.1.isSome && field.2.holdable depth := by
  induction fields with
  | nil => rw [holdableFields, List.all_nil]
  | cons field fields ih => rw [holdableFields, List.all_cons, ih]

theorem Reorders.holdable_eq (h : v.Reorders w) (depth : Nat) :
    v.holdable depth = w.holdable depth := by
  induction h generalizing depth with
  | refl _ => rfl
  | trans _ _ ih ih' => exact (ih depth).trans (ih' depth)
  | fields hperm =>
    cases depth with
    | zero => rw [holdable, holdable]
    | succ depth =>
      rw [holdable, holdable, holdableFields_eq_all, holdableFields_eq_all]
      exact hperm.all_eq
  | item front back _ ih =>
    cases depth with
    | zero => rw [holdable, holdable]
    | succ depth =>
      rw [holdable, holdable, holdableItems_eq_all, holdableItems_eq_all, List.all_append,
        List.all_append, List.all_cons, List.all_cons, ih depth]
  | field front back key _ ih =>
    cases depth with
    | zero => rw [holdable, holdable]
    | succ depth =>
      rw [holdable, holdable, holdableFields_eq_all, holdableFields_eq_all, List.all_append,
        List.all_append, List.all_cons, List.all_cons, ih depth]

/-- A plain document stays plain. -/
theorem Reorders.plain (h : v.Reorders w) (hv : v.Plain) : w.Plain := by
  induction h with
  | refl _ => exact hv
  | trans _ _ ih ih' => exact ih' (ih hv)
  | fields hperm =>
    cases hv with
    | object hkeys hvalues =>
      exact .object (fun field hfield => hkeys field (hperm.mem_iff.2 hfield))
        fun field hfield => hvalues field (hperm.mem_iff.2 hfield)
  | item front back _ ih =>
    cases hv with
    | array hitems =>
      rw [List.forall_mem_append, List.forall_mem_cons] at hitems
      refine .array (List.forall_mem_append.2 ⟨hitems.1, List.forall_mem_cons.2 ⟨?_, ?_⟩⟩)
      · exact ih hitems.2.1
      · exact hitems.2.2
  | field front back key _ ih =>
    cases hv with
    | object hkeys hvalues =>
      rw [List.forall_mem_append, List.forall_mem_cons] at hkeys hvalues
      refine .object (List.forall_mem_append.2 ⟨hkeys.1, List.forall_mem_cons.2 hkeys.2⟩)
        (List.forall_mem_append.2 ⟨hvalues.1, List.forall_mem_cons.2 ⟨?_, hvalues.2.2⟩⟩)
      exact ih hvalues.2.1

end JsonValue

end QubitAllocation
