import KrabkaRegistry.Format.JsonBranches

/-!
# Expanding References

What a document says with every `$ref` replaced by the schema it names.  A `$ref` is replaced where
a schema stands: under the keywords that hold schemas, and not in data such as `enum`.  The
expansion exists when every `$ref` in its reach resolves and none leads back to itself; how a
`$ref` is resolved, and where the references of its target are read, is a parameter.

- `expand_mono`: more fuel does not change an expansion;
- `expand_get`: an expansion goes keyword by keyword;
- `Expanded.subschemas`: what stands below an expansion is one.
-/

namespace KrabkaRegistry.Format.Json

open KrabkaRegistry.Library.Related (forall₂_mem_right mapM_eq_some)

/-! ## Where schemas stand -/

/-- What the value of a keyword is. -/
inductive Position where
  | schema
  | list
  /-- A list of schemas, or one schema. -/
  | items
  /-- Schemas under names. -/
  | map
  | data
  deriving DecidableEq

def positionOf (keyword : String) : Position :=
  if keyword ∈ ["properties", "patternProperties", "dependencies", "$defs", "definitions"] then .map
  else if keyword ∈ ["allOf", "anyOf", "oneOf"] then .list
  else if keyword = "items" then .items
  else if keyword ∈ ["additionalProperties", "additionalItems", "not", "if", "then", "else"] then
    .schema
  else .data

/-- How a `$ref` is resolved: from the document that it is read in to the schema that it names and
the document that the references in there are read in. -/
abbrev Resolver := Value → Value → Option (Value × Value)

/-- As the comparison resolves: pointers are read in one document throughout. -/
def byRoot (refs : RefMap) : Resolver := fun doc v => (resolveRef v doc refs).map (doc, ·)

/-- What a `$ref` names, which has to be a schema: an object or a boolean. -/
def schemaTarget (resolve : Resolver) (doc v : Value) : Option (Value × Value) :=
  (resolve doc v).filter fun target => target.2.isObject || target.2.isBoolean

/-- Replace every `$ref`. -/
def expand (resolve : Resolver) : ℕ → Value → Position → Value → Option Value
  | 0, _, _, _ => none
  | _ + 1, _, .data, v => some v
  | fuel + 1, doc, .map, v =>
    match v with
    | .object members =>
      (members.mapM fun m => (expand resolve fuel doc .schema m.2).map (m.1, ·)).map .object
    | v => some v
  | fuel + 1, doc, .list, v =>
    match v with
    | .array items => (items.mapM (expand resolve fuel doc .schema)).map .array
    | v => some v
  | fuel + 1, doc, .items, v =>
    match v with
    | .array items => (items.mapM (expand resolve fuel doc .schema)).map .array
    | v => expand resolve fuel doc .schema v
  | fuel + 1, doc, .schema, v =>
    match v with
    | .object members =>
      match refOf (.object members) with
      | some _ =>
        (schemaTarget resolve doc (.object members)).bind fun target =>
          expand resolve fuel target.1 .schema target.2
      | none =>
        (members.mapM fun m => (expand resolve fuel doc (positionOf m.1) m.2).map (m.1, ·)).map
          .object
    | v => some v

variable {resolve : Resolver} {fuel : ℕ} {doc v v' : Value} {pos : Position}

/-! ## Lists -/

/-- Members whose values are mapped, each by its own key. -/
abbrev MembersMapped (R : String → Value → Value → Prop) :
    List (String × Value) → List (String × Value) → Prop :=
  List.Forall₂ fun m m' => m.1 = m'.1 ∧ R m.1 m.2 m'.2

theorem mapMembers_eq_some {f : String → Value → Option Value}
    {ms ms' : List (String × Value)} :
    (ms.mapM fun m => (f m.1 m.2).map (m.1, ·)) = some ms' ↔
      MembersMapped (fun key a a' => f key a = some a') ms ms' := by
  rw [mapM_eq_some]
  have hone : ∀ m m' : String × Value,
      (f m.1 m.2).map (m.1, ·) = some m' ↔ m.1 = m'.1 ∧ f m.1 m.2 = some m'.2 := by
    rintro ⟨k, a⟩ ⟨k', a'⟩
    simp only [Option.map_eq_some_iff, Prod.mk.injEq]
    constructor
    · rintro ⟨x, hx, rfl, rfl⟩
      exact ⟨rfl, hx⟩
    · rintro ⟨rfl, hx⟩
      exact ⟨a', hx, rfl, rfl⟩
  simp only [hone]

theorem lookup_mapped {R : String → Value → Value → Prop} {ms ms' : List (String × Value)}
    (h : MembersMapped R ms ms') (key : String) :
    Option.Rel (R key) (ms.lookup key) (ms'.lookup key) := by
  induction h with
  | nil => exact .none
  | @cons m m' ms ms' hm _ ih =>
    obtain ⟨k, a⟩ := m
    obtain ⟨k', a'⟩ := m'
    obtain ⟨rfl, ha⟩ := hm
    simp only [List.lookup_cons]
    cases hkey : key == k with
    | true =>
      obtain rfl : key = k := by simpa using hkey
      exact .some ha
    | false => exact ih

/-! ## One step of an expansion -/

theorem expand_ref {ref : String} (h : refOf v = some ref) :
    expand resolve (fuel + 1) doc .schema v =
      (schemaTarget resolve doc v).bind fun target =>
        expand resolve fuel target.1 .schema target.2 := by
  cases v with
  | object members =>
    show (match refOf (.object members) with
      | some _ => _
      | none => _) = _
    simp only [h]
  | _ => simp [refOf, Value.get] at h

theorem expand_plain {members : List (String × Value)} (h : refOf (.object members) = none) :
    expand resolve (fuel + 1) doc .schema (.object members) = some v' ↔
      ∃ members', v' = .object members' ∧ MembersMapped
        (fun key a a' => expand resolve fuel doc (positionOf key) a = some a') members members' := by
  have hstep : expand resolve (fuel + 1) doc .schema (.object members) =
      (members.mapM fun m => (expand resolve fuel doc (positionOf m.1) m.2).map (m.1, ·)).map
        .object := by
    show (match refOf (.object members) with
      | some _ => _
      | none => _) = _
    simp only [h]
  rw [hstep, Option.map_eq_some_iff]
  simp only [mapMembers_eq_some (f := fun key a => expand resolve fuel doc (positionOf key) a)]
  exact exists_congr fun ms => ⟨fun h => ⟨h.2.symm, h.1⟩, fun h => ⟨h.2, h.1.symm⟩⟩

theorem expand_other (h : v.isObject = false) :
    expand resolve (fuel + 1) doc .schema v = some v := by
  cases v with
  | object members => cases h
  | _ => rfl

theorem expand_map {members : List (String × Value)} :
    expand resolve (fuel + 1) doc .map (.object members) = some v' ↔
      ∃ members', v' = .object members' ∧ MembersMapped
        (fun _ a a' => expand resolve fuel doc .schema a = some a') members members' := by
  show (members.mapM fun m => (expand resolve fuel doc .schema m.2).map (m.1, ·)).map
    Value.object = some v' ↔ _
  rw [Option.map_eq_some_iff]
  simp only [mapMembers_eq_some (f := fun _ a => expand resolve fuel doc .schema a)]
  exact exists_congr fun ms => ⟨fun h => ⟨h.2.symm, h.1⟩, fun h => ⟨h.2, h.1.symm⟩⟩

theorem expand_items_eq {items : List Value} :
    expand resolve (fuel + 1) doc .items (.array items) =
      expand resolve (fuel + 1) doc .list (.array items) := rfl

theorem expand_list {items : List Value} :
    expand resolve (fuel + 1) doc .list (.array items) = some v' ↔
      ∃ items', v' = .array items' ∧
        List.Forall₂ (fun a a' => expand resolve fuel doc .schema a = some a') items items' := by
  show (items.mapM (expand resolve fuel doc .schema)).map Value.array = some v' ↔ _
  rw [Option.map_eq_some_iff]
  simp only [mapM_eq_some]
  exact exists_congr fun ms => ⟨fun h => ⟨h.2.symm, h.1⟩, fun h => ⟨h.2, h.1.symm⟩⟩

/-! ## More fuel -/

theorem expand_succ (h : expand resolve fuel doc pos v = some v') :
    expand resolve (fuel + 1) doc pos v = some v' := by
  -- Induction on the fuel; what one level consumes is the expansion of its parts.
  induction fuel generalizing doc pos v v' with
  | zero => cases h
  | succ fuel ih =>
    cases pos with
    | data => exact h
    | map =>
      cases v with
      | object members =>
        obtain ⟨members', rfl, hms⟩ := expand_map.mp h
        exact expand_map.mpr ⟨members', rfl, hms.imp fun m m' hm => ⟨hm.1, ih hm.2⟩⟩
      | _ => exact h
    | list =>
      cases v with
      | array items =>
        obtain ⟨items', rfl, hitems⟩ := expand_list.mp h
        exact expand_list.mpr ⟨items', rfl, hitems.imp fun a a' ha => ih ha⟩
      | _ => exact h
    | items =>
      cases v with
      | array items =>
        rw [expand_items_eq] at h ⊢
        obtain ⟨items', rfl, hitems⟩ := expand_list.mp h
        exact expand_list.mpr ⟨items', rfl, hitems.imp fun a a' ha => ih ha⟩
      | _ => exact ih h
    | schema =>
      cases v with
      | object members =>
        cases href : refOf (.object members) with
        -- A reference costs one unit and goes on at its target.
        | some ref =>
          rw [expand_ref href] at h ⊢
          obtain ⟨target, htarget, h⟩ := Option.bind_eq_some_iff.mp h
          exact Option.bind_eq_some_iff.mpr ⟨target, htarget, ih h⟩
        | none =>
          obtain ⟨members', rfl, hms⟩ := (expand_plain href).mp h
          exact (expand_plain href).mpr ⟨members', rfl, hms.imp fun m m' hm => ⟨hm.1, ih hm.2⟩⟩
      | _ => exact h

/-- More fuel does not change an expansion. -/
theorem expand_mono {fuel' : ℕ} (h : expand resolve fuel doc pos v = some v')
    (hle : fuel ≤ fuel') : expand resolve fuel' doc pos v = some v' := by
  induction fuel', hle using Nat.le_induction with
  | base => exact h
  | succ fuel' _ ih => exact expand_succ ih

theorem expand_unique {fuel' : ℕ} {w w' : Value} (h : expand resolve fuel doc pos v = some w)
    (h' : expand resolve fuel' doc pos v = some w') : w = w' := by
  have h₁ := expand_mono h (le_max_left fuel fuel')
  have h₂ := expand_mono h' (le_max_right fuel fuel')
  exact Option.some.inj (h₁.symm.trans h₂)

/-! ## Keyword by keyword -/

theorem expand_get (hv : refOf v = none) (h : expand resolve (fuel + 1) doc .schema v = some v')
    (key : String) :
    Option.Rel (fun a a' => expand resolve fuel doc (positionOf key) a = some a') (v.get key)
      (v'.get key) := by
  cases v with
  | object members =>
    obtain ⟨members', rfl, hms⟩ := (expand_plain hv).mp h
    exact lookup_mapped hms key
  | _ =>
    cases h
    exact .none

/-- A keyword that holds data stays. -/
theorem expand_get_data (hv : refOf v = none)
    (h : expand resolve (fuel + 1) doc .schema v = some v') {key : String}
    (hkey : positionOf key = .data) : v.get key = v'.get key := by
  have hrel := expand_get hv h key
  rw [hkey] at hrel
  cases ha : v.get key with
  | none =>
    cases ha' : v'.get key with
    | none => rfl
    | some a' => rw [ha, ha'] at hrel; cases hrel
  | some a =>
    cases ha' : v'.get key with
    | none => rw [ha, ha'] at hrel; cases hrel
    | some a' =>
      rw [ha, ha', Option.rel_some_some] at hrel
      cases fuel with
      | zero => cases hrel
      | succ fuel => exact hrel

/-- No `$ref` is left at the top of an expansion. -/
theorem expand_refOf (h : expand resolve fuel doc .schema v = some v') : refOf v' = none := by
  induction fuel generalizing doc v with
  | zero => cases h
  | succ fuel ih =>
    cases href : refOf v with
    | some ref =>
      rw [expand_ref href] at h
      obtain ⟨target, -, h⟩ := Option.bind_eq_some_iff.mp h
      exact ih h
    | none =>
      unfold refOf at href ⊢
      rw [← expand_get_data href h (by decide)]
      exact href

/-- What is no object holds no `$ref`. -/
theorem expand_same (h : expand resolve fuel doc .schema v = some v') (hv : v.isObject = false) :
    v' = v := by
  cases fuel with
  | zero => cases h
  | succ fuel =>
    rw [expand_other hv] at h
    exact (Option.some.inj h).symm

/-- An object leads to a schema. -/
theorem expand_kind (h : expand resolve fuel doc .schema v = some v') (hv : v.isObject = true) :
    v'.isObject = true ∨ v'.isBoolean = true := by
  induction fuel generalizing doc v with
  | zero => cases h
  | succ fuel ih =>
    cases v with
    | object members =>
      cases href : refOf (.object members) with
      | some ref =>
        rw [expand_ref href] at h
        obtain ⟨target, htarget, h⟩ := Option.bind_eq_some_iff.mp h
        have hschema := (Option.filter_eq_some_iff.mp htarget).2
        cases htarget' : target.2.isObject with
        | true => exact ih h htarget'
        | false =>
          rw [expand_same h htarget']
          simpa [htarget'] using hschema
      | none =>
        obtain ⟨members', rfl, -⟩ := (expand_plain href).mp h
        exact .inl rfl
    | _ => cases hv

/-- What is expanded as a schema does not become a list. -/
theorem expand_notArray (h : expand resolve fuel doc .schema v = some v') (hv : v.isArray = false) :
    v'.isArray = false := by
  cases hobject : v.isObject with
  | false => rwa [expand_same h hobject]
  | true =>
    rcases expand_kind h hobject with hv' | hv'
    · exact Value.isArray_of_isObject hv'
    · cases v' with
      | bool b => rfl
      | _ => cases hv'

/-- Under a keyword that holds a map, the members are expanded. -/
theorem expand_members (hv : refOf v = none)
    (h : expand resolve (fuel + 1) doc .schema v = some v') {key : String}
    (hkey : positionOf key = .map) :
    MembersAlike (fun a a' => expand resolve fuel doc .schema a = some a')
      (((v.get key).bind Value.asObject).getD []) (((v'.get key).bind Value.asObject).getD []) := by
  have hrel := expand_get hv h key
  rw [hkey] at hrel
  revert hrel
  generalize v.get key = a
  generalize v'.get key = a'
  intro hrel
  -- An absent keyword stays absent, and a value that is no object has no members on either side.
  cases hrel with
  | none => exact .nil
  | @some a a' hrel =>
    cases fuel with
    | zero => cases hrel
    | succ fuel =>
      cases a with
      | object members =>
        obtain ⟨members', rfl, hms⟩ := expand_map.mp hrel
        exact hms.imp fun m m' hm => ⟨hm.1, expand_succ hm.2⟩
      | _ =>
        cases hrel
        exact .nil

/-- Under a keyword that holds a list, the items are expanded. -/
theorem expand_branches (hv : refOf v = none)
    (h : expand resolve (fuel + 1) doc .schema v = some v') {key : String}
    (hkey : positionOf key = .list) :
    Option.Rel (List.Forall₂ fun a a' => expand resolve fuel doc .schema a = some a')
      (branches v key) (branches v' key) := by
  have hrel := expand_get hv h key
  rw [hkey] at hrel
  unfold branches
  revert hrel
  generalize v.get key = a
  generalize v'.get key = a'
  intro hrel
  cases hrel with
  | none => exact .none
  | @some a a' hrel =>
    cases fuel with
    | zero => cases hrel
    | succ fuel =>
      cases a with
      | array items =>
        obtain ⟨items', rfl, hitems⟩ := expand_list.mp hrel
        exact .some (hitems.imp fun x x' hx => expand_succ hx)
      | _ =>
        cases hrel
        exact .none

/-! ## Below an expansion -/

/-- What a schema is expanded to, somewhere. -/
def Expanded (resolve : Resolver) (v' : Value) : Prop :=
  ∃ doc fuel v, expand resolve fuel doc .schema v = some v'

theorem Expanded.refOf {v : Value} (h : Expanded resolve v) : Json.refOf v = none := by
  obtain ⟨doc, fuel, x, hx⟩ := h
  exact expand_refOf hx

/-- An expansion comes from a schema that is no `$ref`. -/
theorem Expanded.source {v' : Value} (h : Expanded resolve v') :
    ∃ doc fuel v, Json.refOf v = none ∧ expand resolve (fuel + 1) doc .schema v = some v' := by
  obtain ⟨doc, fuel, v, hv⟩ := h
  induction fuel generalizing doc v with
  | zero => cases hv
  | succ fuel ih =>
    cases href : Json.refOf v with
    | none => exact ⟨doc, fuel, v, href, hv⟩
    | some ref =>
      rw [expand_ref href] at hv
      obtain ⟨target, -, hv⟩ := Option.bind_eq_some_iff.mp hv
      exact ih _ _ hv

/-- The schemas below an expansion are expansions. Each of them stands under a keyword whose value
was expanded with one unit of fuel less, in the same document. -/
theorem Expanded.subschemas {v' y : Value} (h : Expanded resolve v') (hy : y ∈ Json.subschemas v') :
    Expanded resolve y := by
  obtain ⟨doc, fuel, v, hv, hexp⟩ := h.source
  -- Each part of the subschemas is a keyword at which schemas stand.
  have hmembers : ∀ key, positionOf key = .map →
      ∀ m ∈ ((v'.get key).bind Value.asObject).getD [], Expanded resolve m.2 := by
    intro key hkey m hm
    obtain ⟨x, -, hx⟩ := forall₂_mem_right (expand_members hv hexp hkey) hm
    exact ⟨doc, fuel, x.2, hx.2⟩
  have hunder : ∀ key x, v'.get key = some x → positionOf key = .schema → Expanded resolve x := by
    intro key x hx hkey
    have hrel := expand_get hv hexp key
    rw [hkey, hx] at hrel
    generalize v.get key = a at hrel
    cases hrel with
    | some hrel => exact ⟨doc, fuel, _, hrel⟩
  unfold Json.subschemas at hy
  simp only [List.mem_append] at hy
  rcases hy with (((hy | hy) | hy) | hy) | hy
  · obtain ⟨m, hm, rfl⟩ := List.mem_map.mp hy
    exact hmembers "properties" (by decide) m hm
  -- A list under `items` holds schemas, and a single one is a schema itself.
  · have hrel := expand_get hv hexp "items"
    have hpos : positionOf "items" = .items := by decide
    rw [hpos] at hrel
    unfold itemSchemas at hy
    generalize v.get "items" = a at hrel
    generalize v'.get "items" = a' at hrel hy
    cases hrel with
    | none => simp at hy
    | @some a a' hrel =>
      cases fuel with
      | zero => cases hrel
      | succ fuel =>
        cases ha : a.isArray with
        | true =>
          cases a with
          | array items =>
            rw [expand_items_eq] at hrel
            obtain ⟨items', rfl, hitems⟩ := expand_list.mp hrel
            obtain ⟨x, -, hx⟩ := forall₂_mem_right hitems hy
            exact ⟨doc, fuel, x, hx⟩
          | _ => cases ha
        | false =>
          have hschema : expand resolve fuel doc .schema a = some a' := by
            cases a with
            | array items => cases ha
            | _ => exact hrel
          have ha' := expand_notArray hschema ha
          cases a' with
          | object members =>
            obtain rfl := List.mem_singleton.mp hy
            exact ⟨doc, fuel, a, hschema⟩
          | array items => cases ha'
          | _ => cases hy
  · obtain ⟨hmem, -⟩ := List.mem_filter.mp hy
    exact hunder _ y (Option.mem_toList.mp hmem) (by decide)
  · obtain ⟨hmem, -⟩ := List.mem_filter.mp hy
    exact hunder _ y (Option.mem_toList.mp hmem) (by decide)
  · obtain ⟨hmem, -⟩ := List.mem_filter.mp hy
    obtain ⟨m, hm, rfl⟩ := List.mem_map.mp hmem
    exact hmembers "dependencies" (by decide) m hm

end KrabkaRegistry.Format.Json
