import KrabkaRegistry.Format.JsonTermination

/-!
# A Schema Compared with Itself

On equal schemas every keyword reports nothing, whatever its value is, and goes on to the
subschemas on both sides at once.  The one exception is `items` that is neither a schema nor a
list of schemas: it falls through to a report that the type has changed.
-/

namespace KrabkaRegistry.Format.Json

variable (L : DiffLibs)

/-! ## Keyword by keyword -/

/-- A schema has the types it has. -/
theorem compareType_self (x : Value) : compareType x x = [] := by simp [compareType]

/-- Equal lists of values are not reported. -/
theorem compareEnum_self (x : Value) : compareEnum L x x = [] := by simp [compareEnum]

/-- No property becomes required or ceases to be. -/
theorem compareRequired_self (x : Value) : compareRequired x x = [] := by
  simp [compareRequired]

/-- A limit does not differ from itself, rounding included. -/
theorem differs_self (o : ℚ) : differs o o = false := by
  simp [differs, Library.Binary64.epsilon]

/-- No bound moves, appears or disappears. -/
theorem compareBound_self (x : Value) (key : String) (kinds : Kind × Kind × Kind × Kind) :
    compareBound x x key kinds = [] := by
  unfold compareBound
  cases num x key with
  | none => rfl
  | some o => simp [differs_self]

/-- The numeric constraints are bounds and a `multipleOf` that divides itself. -/
theorem compareNumeric_self (x : Value) : compareNumeric x x = [] := by
  have hmultiple : compareMultipleOf x x = [] := by
    unfold compareMultipleOf
    cases num x "multipleOf" with
    | none => rfl
    | some o => simp [differs_self]
  simp [compareNumeric, compareBound_self, hmultiple]

/-- The lengths are bounds, and equal patterns are not reported. -/
theorem compareStringConstraints_self (x : Value) : compareStringConstraints x x = [] := by
  have hpattern : comparePattern x x = [] := by
    unfold comparePattern
    cases (x.get "pattern").bind Value.asStr <;> simp
  simp [compareStringConstraints, compareBound_self, hpattern]

/-- The sizes of objects are bounds. -/
theorem compareObjectSize_self (x : Value) : compareObjectSize x x = [] := by
  simp [compareObjectSize, compareBound_self]

/-- Uniqueness is neither asked for anew nor dropped. -/
theorem compareUniqueItems_self (x : Value) : compareUniqueItems x x = [] := by
  unfold compareUniqueItems
  cases uniqueItems x <;> rfl

/-- Equal conditionals are not compared at all. -/
theorem compareConditionals_self (x : Value) : compareConditionals L x x = [] := by
  have hone : ∀ keyword, compareConditional L x x keyword = [] := by
    intro keyword
    unfold compareConditional
    cases x.get keyword <;> simp
  simp [compareConditionals, hone]

/-- Equal combinators report nothing. -/
theorem compareCombinators_same (f : Value → Value → Option Bool) {o u : Value}
    (hbranches : branches o "allOf" = branches u "allOf") (hsums : sumOf o = sumOf u)
    (hnots : o.get "not" = u.get "not") : compareCombinators f o u = some [] := by
  have hproduct : compareAllOf f o u = some [] := by
    unfold compareAllOf
    rw [hbranches]
    cases branches u "allOf" <;> simp
  have hsum : compareSum f o u = some [] := by
    unfold compareSum
    rw [hsums]
    rcases sumOf u with _ | ⟨kind, items⟩ <;> simp
  have hnot : compareNot f o u = some [] := by
    unfold compareNot
    rw [hnots]
    cases u.get "not" <;> simp
  simp [compareCombinators, hproduct, hsum, hnot]

/-! ## The subschemas -/

/-- The schemas of `items`: one, or one for each place. -/
def itemSchemas (x : Value) : List Value :=
  match x.get "items" with
  | some (.object members) => [.object members]
  | some (.array items) => items
  | _ => []

/-- The value of a keyword that is not a boolean. -/
def schemaUnder (x : Value) (keyword : String) : List Value :=
  (x.get keyword).toList.filter fun value => !value.isBoolean

/-- The dependencies of a schema. -/
def dependencies (x : Value) : List (String × Value) :=
  ((x.get "dependencies").bind Value.asObject).getD []

/-- The schemas that a schema without `$ref` is compared on with, when it is compared with
itself. -/
def subschemas (x : Value) : List Value :=
  (declared x).map (·.2) ++ itemSchemas x ++ schemaUnder x "additionalProperties" ++
    schemaUnder x "additionalItems" ++ ((dependencies x).map (·.2)).filter Value.isObject

/-- `items` is there, and neither a schema object nor a list. -/
def MalformedItems (x : Value) : Prop :=
  ∃ items, x.get "items" = some items ∧ items.isObject = false ∧ items.isArray = false

/-- The steps go on to the schemas of the list, each with itself. -/
def SelfSteps (steps : List Step) (schemas : List Value) : Prop :=
  (∀ s ∈ steps, ∃ suffix, ∃ y ∈ schemas, s = .recurse suffix y y) ∧
    ∀ y ∈ schemas, ∃ suffix, .recurse suffix y y ∈ steps

namespace SelfSteps

/-- No step, no subschema. -/
theorem nil : SelfSteps [] [] := ⟨by simp, by simp⟩

/-- One recursion of a subschema against itself. -/
theorem one (suffix : String) (y : Value) : SelfSteps [.recurse suffix y y] [y] := by
  constructor
  · intro s hs
    exact ⟨suffix, y, List.mem_singleton_self y, List.mem_singleton.mp hs⟩
  · intro y' hy'
    obtain rfl := List.mem_singleton.mp hy'
    exact ⟨suffix, List.mem_singleton_self _⟩

/-- The steps of two keywords. -/
theorem append {s t : List Step} {a b : List Value} (hs : SelfSteps s a) (ht : SelfSteps t b) :
    SelfSteps (s ++ t) (a ++ b) := by
  constructor
  · intro x hx
    rcases List.mem_append.mp hx with hx | hx
    · obtain ⟨suffix, y, hy, heq⟩ := hs.1 x hx
      exact ⟨suffix, y, List.mem_append_left _ hy, heq⟩
    · obtain ⟨suffix, y, hy, heq⟩ := ht.1 x hx
      exact ⟨suffix, y, List.mem_append_right _ hy, heq⟩
  · intro y hy
    rcases List.mem_append.mp hy with hy | hy
    · obtain ⟨suffix, hmem⟩ := hs.2 y hy
      exact ⟨suffix, List.mem_append_left _ hmem⟩
    · obtain ⟨suffix, hmem⟩ := ht.2 y hy
      exact ⟨suffix, List.mem_append_right _ hmem⟩

/-- The steps of a loop. -/
theorem flatMap {ι : Type} {l : List ι} {f : ι → List Step} {g : ι → List Value}
    (h : ∀ i ∈ l, SelfSteps (f i) (g i)) : SelfSteps (l.flatMap f) (l.flatMap g) := by
  induction l with
  | nil => exact nil
  | cons i l ih =>
    simp only [List.flatMap_cons]
    exact (h i List.mem_cons_self).append (ih fun j hj => h j (List.mem_cons_of_mem i hj))

end SelfSteps

/-! ## The steps that go on -/

variable {x : Value}

/-- With distinct members the declared properties have distinct names. -/
theorem declared_nodup (hx : x.Distinct) : ((declared x).map (·.1)).Nodup := by
  unfold declared props
  cases hg : x.get "properties" with
  | none => simp
  | some v =>
    cases v with
    | object members => simpa [hg, Value.asObject] using hx members (Value.sub_of_get hg)
    | _ => simp [Value.asObject]

/-- With distinct members the dependencies have distinct names. -/
theorem dependencies_nodup (hx : x.Distinct) : ((dependencies x).map (·.1)).Nodup := by
  unfold dependencies
  cases hg : x.get "dependencies" with
  | none => simp
  | some v =>
    cases v with
    | object members => simpa [hg, Value.asObject] using hx members (Value.sub_of_get hg)
    | _ => simp [Value.asObject]

/-- Every property meets itself. -/
theorem compareProperties_self (hx : x.Distinct) :
    SelfSteps (compareProperties L x x) ((declared x).map (·.2)) := by
  have hlookup : ∀ p ∈ declared x, (declared x).lookup p.1 = some p.2 := fun p hp =>
    Value.lookup_of_mem (declared_nodup hx) hp
  have hremoved : ((declared x).flatMap fun p =>
      if ((declared x).lookup p.1).isSome then [] else removedProperty L x p.1 p.2) = [] := by
    rw [List.flatMap_eq_nil_iff]
    intro p hp
    simp [hlookup p hp]
  unfold compareProperties
  simp only [hremoved, List.nil_append]
  rw [← List.flatMap_singleton' ((declared x).map (·.2)), List.flatMap_map]
  refine SelfSteps.flatMap fun p hp => ?_
  simp only [hlookup p hp]
  exact .one _ _

/-- The schema for further properties, if there is one, meets itself. -/
theorem compareAdditionalProperties_self :
    SelfSteps (compareAdditionalProperties x x) (schemaUnder x "additionalProperties") := by
  unfold compareAdditionalProperties schemaUnder
  cases x.get "additionalProperties" with
  | none => simpa [isFalse, isSchemaValued] using SelfSteps.nil
  | some v =>
    by_cases hb : v.isBoolean
    · simpa [isSchemaValued, hb] using SelfSteps.nil
    · simpa [isSchemaValued, hb] using SelfSteps.one _ v

/-- The schema for further items, if there is one, meets itself. -/
theorem compareAdditionalItems_self :
    SelfSteps (compareAdditionalItems x x) (schemaUnder x "additionalItems") := by
  unfold compareAdditionalItems schemaUnder
  cases x.get "additionalItems" with
  | none => simpa [isFalse, isSchemaValued] using SelfSteps.nil
  | some v =>
    by_cases hb : v.isBoolean
    · simpa [isSchemaValued, hb] using SelfSteps.nil
    · simpa [isSchemaValued, hb] using SelfSteps.one _ v

/-- The subschemas compared count as a set. -/
theorem SelfSteps.mem_iff {steps : List Step} {a b : List Value} (h : SelfSteps steps a)
    (hab : ∀ y, y ∈ a ↔ y ∈ b) : SelfSteps steps b := by
  refine ⟨fun s hs => ?_, fun y hy => h.2 y ((hab y).mpr hy)⟩
  obtain ⟨suffix, y, hy, heq⟩ := h.1 s hs
  exact ⟨suffix, y, (hab y).mp hy, heq⟩

/-- A dependency that is a schema meets itself; every other one is equal to itself and not compared.
-/
theorem compareDependency_self (suffix : String) (v : Value) :
    SelfSteps (compareDependency suffix v v) (if v.isObject then [v] else []) := by
  cases v with
  | object members =>
    have h := SelfSteps.one suffix (.object members)
    simpa [compareDependency, Value.asArray, Value.isObject, Value.asObject] using h
  | _ =>
    have h := SelfSteps.nil
    simpa [compareDependency, Value.asArray, Value.isObject, Value.asObject] using h

/-- The dependencies of a schema that are compared with themselves are the schemas among them. None
is new and none is gone, and a list of names is the same list. -/
theorem compareDependencies_self (hx : x.Distinct) :
    SelfSteps (compareDependencies x x) (((dependencies x).map (·.2)).filter Value.isObject) := by
  have hlookup : ∀ p ∈ dependencies x, (dependencies x).lookup p.1 = some p.2 := fun p hp =>
    Value.lookup_of_mem (dependencies_nodup hx) hp
  -- No dependency is new.
  have hadded : ((dependencies x).flatMap fun p =>
      if ((dependencies x).lookup p.1).isSome then []
      else [.report (dependencyKind p.2 true) ("/dependencies/" ++ p.1)]) = ([] : List Step) := by
    rw [List.flatMap_eq_nil_iff]
    intro p hp
    simp [hlookup p hp]
  have heq : compareDependencies x x =
      (dependencies x).flatMap fun p => compareDependency ("/dependencies/" ++ p.1) p.2 p.2 := by
    have hparts : compareDependencies x x =
        (dependencies x).flatMap _ ++ (dependencies x).flatMap fun p =>
          if ((dependencies x).lookup p.1).isSome then []
          else [.report (dependencyKind p.2 true) ("/dependencies/" ++ p.1)] := rfl
    rw [hparts, hadded, List.append_nil]
    apply List.flatMap_congr
    intro p hp
    have hfound : (((x.get "dependencies").bind Value.asObject).getD []).lookup p.1 = some p.2 :=
      hlookup p hp
    simp only [hfound]
  have hflat : SelfSteps (compareDependencies x x)
      ((dependencies x).flatMap fun p => if p.2.isObject then [p.2] else []) := by
    rw [heq]
    exact SelfSteps.flatMap fun p _ => compareDependency_self _ p.2
  refine hflat.mem_iff fun y => ?_
  simp only [List.mem_flatMap, List.mem_filter, List.mem_map]
  constructor
  · rintro ⟨p, hp, hy⟩
    split_ifs at hy with hobj
    · obtain rfl := List.mem_singleton.mp hy
      exact ⟨⟨p, hp, rfl⟩, hobj⟩
    · simp at hy
  · rintro ⟨⟨p, hp, rfl⟩, hobj⟩
    exact ⟨p, hp, by simp [hobj]⟩

/-- `items` is compared place by place, or reported as malformed. -/
theorem compareItems_self :
    (¬ MalformedItems x ∧ SelfSteps (compareItems x x) (itemSchemas x)) ∨
      (MalformedItems x ∧ compareItems x x = [.report .typeChanged "/items"] ∧
        itemSchemas x = []) := by
  unfold MalformedItems itemSchemas compareItems
  cases hg : x.get "items" with
  | none => exact .inl ⟨by simp, by simpa using SelfSteps.nil⟩
  | some v =>
    cases v with
    -- One schema meets itself; a list meets itself item by item; anything else is reported.
    | object members =>
      refine .inl ⟨by simp [Value.isObject, Value.asObject], ?_⟩
      simpa [Value.isObject, Value.asObject] using SelfSteps.one "/items" (.object members)
    | array items =>
      refine .inl ⟨by simp [Value.isArray, Value.asArray], ?_⟩
      simp only [Value.isObject, Value.asObject, Option.isSome_none, Bool.false_eq_true, and_self,
        if_false, lt_irrefl, List.append_nil]
      constructor
      · intro s hs
        obtain ⟨p, hp, rfl⟩ := List.mem_map.mp hs
        have hzip : p.1 ∈ items.zip items := List.fst_mem_of_mem_zipIdx hp
        have hself : p.1.1 = p.1.2 := zip_self_eq hzip
        have hmem : p.1.2 ∈ items := (List.of_mem_zip (a := p.1.1) (b := p.1.2) hzip).2
        exact ⟨_, p.1.2, hmem, by rw [hself]⟩
      · intro y hy
        obtain ⟨n, hn, rfl⟩ := List.getElem_of_mem hy
        refine ⟨"/items/" ++ toString n, List.mem_map.mpr ⟨((items[n], items[n]), n), ?_, rfl⟩⟩
        rw [List.mem_zipIdx_iff_getElem?]
        simp [hn]
    | _ => exact .inr ⟨by simp [Value.isObject, Value.isArray, Value.asObject, Value.asArray],
        by simp [Value.isObject, Value.asObject], rfl⟩

/-- What a schema reports of itself, and where the comparison goes on. Only `items` can be reported;
all other steps go into a subschema, against itself, and each subschema has such a step. -/
theorem keywordSteps_self (hx : x.Distinct) :
    (∀ s ∈ keywordSteps L x x, (∃ suffix, ∃ y ∈ subschemas x, s = .recurse suffix y y) ∨
      MalformedItems x ∧ s = .report .typeChanged "/items") ∧
    (∀ y ∈ subschemas x, ∃ suffix, .recurse suffix y y ∈ keywordSteps L x x) ∧
    (MalformedItems x → .report .typeChanged "/items" ∈ keywordSteps L x x) := by
  -- The keywords that only report have nothing to report.
  have hsteps : keywordSteps L x x = compareProperties L x x ++
      compareAdditionalProperties x x ++ compareItems x x ++ compareAdditionalItems x x ++
      compareDependencies x x := by
    simp [keywordSteps, compareType_self, compareEnum_self, compareRequired_self,
      compareNumeric_self, compareStringConstraints_self, compareObjectSize_self,
      compareConditionals_self, compareArrayConstraints, compareBound_self,
      compareUniqueItems_self]
  have hother : SelfSteps (compareProperties L x x ++ compareAdditionalProperties x x ++
      compareAdditionalItems x x ++ compareDependencies x x)
      ((declared x).map (·.2) ++ schemaUnder x "additionalProperties" ++
        schemaUnder x "additionalItems" ++ ((dependencies x).map (·.2)).filter Value.isObject) :=
    (((compareProperties_self L hx).append compareAdditionalProperties_self).append
      compareAdditionalItems_self).append (compareDependencies_self hx)
  have hmem : ∀ s, s ∈ keywordSteps L x x ↔ s ∈ compareItems x x ∨
      s ∈ compareProperties L x x ++ compareAdditionalProperties x x ++
        compareAdditionalItems x x ++ compareDependencies x x := by
    intro s
    simp only [hsteps, List.mem_append, or_assoc, or_left_comm]
  have hsub : ∀ y, y ∈ subschemas x ↔ y ∈ itemSchemas x ∨
      y ∈ (declared x).map (·.2) ++ schemaUnder x "additionalProperties" ++
        schemaUnder x "additionalItems" ++
        ((dependencies x).map (·.2)).filter Value.isObject := by
    intro y
    simp only [subschemas, List.mem_append, or_assoc, or_left_comm]
  -- `items` is the exception: a value that is neither a schema nor a list counts as changed against
  -- itself.
  rcases compareItems_self (x := x) with ⟨hgood, hitems⟩ | ⟨hbad, hitems, hnone⟩
  · refine ⟨fun s hs => ?_, fun y hy => ?_, fun h => absurd h hgood⟩
    · rcases (hmem s).mp hs with hs | hs
      · obtain ⟨suffix, y, hy, heq⟩ := hitems.1 s hs
        exact .inl ⟨suffix, y, (hsub y).mpr (.inl hy), heq⟩
      · obtain ⟨suffix, y, hy, heq⟩ := hother.1 s hs
        exact .inl ⟨suffix, y, (hsub y).mpr (.inr hy), heq⟩
    · rcases (hsub y).mp hy with hy | hy
      · obtain ⟨suffix, hstep⟩ := hitems.2 y hy
        exact ⟨suffix, (hmem _).mpr (.inl hstep)⟩
      · obtain ⟨suffix, hstep⟩ := hother.2 y hy
        exact ⟨suffix, (hmem _).mpr (.inr hstep)⟩
  · refine ⟨fun s hs => ?_, fun y hy => ?_, fun _ => (hmem _).mpr (.inl (by simp [hitems]))⟩
    · rcases (hmem s).mp hs with hs | hs
      · rw [hitems] at hs
        exact .inr ⟨hbad, List.mem_singleton.mp hs⟩
      · obtain ⟨suffix, y, hy, heq⟩ := hother.1 s hs
        exact .inl ⟨suffix, y, (hsub y).mpr (.inr hy), heq⟩
    · rcases (hsub y).mp hy with hy | hy
      · rw [hnone] at hy
        simp at hy
      · obtain ⟨suffix, hstep⟩ := hother.2 y hy
        exact ⟨suffix, (hmem _).mpr (.inr hstep)⟩

variable {L}

/-- By itself a schema is compatible with itself unless its `items` is malformed. -/
theorem locallyOk_self {ctx : Ctx} (hx : x.Distinct) :
    LocallyOk L ⟨ctx, x, x⟩ ↔ ¬ MalformedItems x := by
  constructor
  · intro h hbad
    have hreport := h.2 _ _ ((keywordSteps_self L hx).2.2 hbad)
    simp [isBackwardCompatible] at hreport
  · intro hgood
    refine ⟨⟨[], compareCombinators_same _ rfl rfl rfl, by simp⟩, fun kind suffix hmem => ?_⟩
    rcases (keywordSteps_self L hx).1 _ hmem with ⟨suffix', y, -, heq⟩ | ⟨hbad, -⟩
    · cases heq
    · exact absurd hbad hgood

end KrabkaRegistry.Format.Json
