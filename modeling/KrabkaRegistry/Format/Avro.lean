import KrabkaRegistry.Format.Diff
import KrabkaRegistry.Format.JsonValue
import Mathlib.Logic.Relation

/-!
# The Avro Format

`format/avro.rs`: before two schemas are compared, the writer takes the reader's names where an
alias says so, and the reader takes the writer's enum symbols where it has a default.  The
comparison itself is the library's.
-/

namespace KrabkaRegistry.Format.Avro

open KrabkaRegistry.Format.Json (Value)

abbrev Members := List (String × Value)

/-! ## Members -/

def getStr (key : String) (members : Members) : Option String :=
  (members.lookup key).bind Value.asStr

def getArray (key : String) (members : Members) : Option (List Value) :=
  (members.lookup key).bind Value.asArray

/-- Replace the value of a key that is there. -/
def setMember (key : String) (v : Value) : Members → Members
  | [] => []
  | (k, x) :: members =>
    if k = key then (k, v) :: members else (k, x) :: setMember key v members

/-- `*value.get_mut(key) = v`. -/
def setValue (key : String) (v : Value) : Value → Value
  | .object members => .object (setMember key v members)
  | other => other

/-! ## `apply_reader_rules` -/

/-- The reader's name, where the writer's is another and one of its aliases. -/
def renames (reader writer : Members) : Option String := do
  let readerName ← getStr "name" reader
  let writerName ← getStr "name" writer
  let aliases ← getArray "aliases" reader
  if readerName ≠ writerName ∧ aliases.any fun a => a.asStr = some writerName then
    some readerName
  else none

/-- A definition that is an alias of the reader's takes its name. -/
def takeName (reader writer : Members) : Members :=
  match renames reader writer with
  | some name => setMember "name" (.string name) writer
  | none => writer

def pushSymbols (readerSymbols writerSymbols : List Value) : List Value :=
  writerSymbols.foldl
    (fun symbols symbol => if symbol ∈ symbols then symbols else symbols ++ [symbol])
    readerSymbols

/-- An enum with a default reads every symbol of the writer's. -/
def adoptSymbols (reader writer : Members) : Members :=
  if getStr "type" reader = some "enum" ∧ getStr "type" writer = some "enum" then
    match getStr "default" reader, getArray "symbols" writer, getArray "symbols" reader with
    | some default, some writerSymbols, some readerSymbols =>
      if readerSymbols.any fun symbol => symbol.asStr = some default then
        setMember "symbols" (.array (pushSymbols readerSymbols writerSymbols)) reader
      else reader
    | _, _, _ => reader
  else reader

def fieldName (field : Value) : Option String := (field.get "name").bind Value.asStr

section Level

/-! One level of the walk; `rules` is applied to the levels below. -/

variable (rules : Value → Value → Value × Value)

/-- The types of two fields of one name. -/
def ruleTypes (readerField writerField : Value) : Value × Value :=
  match readerField.get "type", writerField.get "type" with
  | some readerType, some writerType =>
    let types := rules readerType writerType
    (setValue "type" types.1 readerField, setValue "type" types.2 writerField)
  | _, _ => (readerField, writerField)

/-- A field of the reader and the first of the writer's that has its name. -/
def ruleField (readerField : Value) (name : String) : List Value → Value × List Value
  | [] => (readerField, [])
  | writerField :: writerFields =>
    if fieldName writerField = some name then
      let fields := ruleTypes rules readerField writerField
      (fields.1, fields.2 :: writerFields)
    else
      let rest := ruleField readerField name writerFields
      (rest.1, writerField :: rest.2)

def ruleFields : List Value → List Value → List Value × List Value
  | [], writerFields => ([], writerFields)
  | readerField :: readerFields, writerFields =>
    let first :=
      match fieldName readerField with
      | none => (readerField, writerFields)
      | some name => ruleField rules readerField name writerFields
    let rest := ruleFields readerFields first.2
    (first.1 :: rest.1, rest.2)

/-- The branches of two unions, by position. -/
def ruleItems : List Value → List Value → List Value × List Value
  | reader :: readers, writer :: writers =>
    let first := rules reader writer
    let rest := ruleItems readers writers
    (first.1 :: rest.1, first.2 :: rest.2)
  | readers, writers => (readers, writers)

def ruleRecords (reader writer : Members) : Members × Members :=
  match getArray "fields" reader, getArray "fields" writer with
  | some readerFields, some writerFields =>
    let fields := ruleFields rules readerFields writerFields
    (setMember "fields" (.array fields.1) reader, setMember "fields" (.array fields.2) writer)
  | _, _ => (reader, writer)

def ruleMembers (reader writer : Members) : Members × Members :=
  let writer := takeName reader writer
  let reader := adoptSymbols reader writer
  ruleRecords rules reader writer

def ruleLevel : Value → Value → Value × Value
  | .object reader, .object writer =>
    let members := ruleMembers rules reader writer
    (.object members.1, .object members.2)
  | .array reader, .array writer =>
    let items := ruleItems rules reader writer
    (.array items.1, .array items.2)
  | reader, writer => (reader, writer)

end Level

/-- The first levels of the walk. -/
def rulesWithin : ℕ → Value → Value → Value × Value
  | 0 => fun reader writer => (reader, writer)
  | n + 1 => ruleLevel (rulesWithin n)

mutual

/-- How deep a value is nested. -/
def depth : Value → ℕ
  | .array items => depthItems items + 1
  | .object members => depthMembers members + 1
  | _ => 0

def depthItems : List Value → ℕ
  | [] => 0
  | v :: vs => max (depth v) (depthItems vs)

def depthMembers : List (String × Value) → ℕ
  | [] => 0
  | (_, v) :: members => max (depth v) (depthMembers members)

end

/-- `apply_reader_rules`: the two schemas as they are left.  The walk goes as deep as the
reader. -/
def applyReaderRules (reader writer : Value) : Value × Value :=
  rulesWithin (depth reader) reader writer

/-! ## `check` -/

mutual

/-- `erase_logical_types`. -/
def eraseLogicalTypes : Value → Value
  | .object members =>
    if members.any fun m => m.1 = "logicalType" then
      .object ((eraseMembers members).filter fun m =>
        m.1 ≠ "logicalType" ∧ m.1 ≠ "precision" ∧ m.1 ≠ "scale")
    else .object (eraseMembers members)
  | .array items => .array (eraseItems items)
  | other => other

def eraseItems : List Value → List Value
  | [] => []
  | v :: vs => eraseLogicalTypes v :: eraseItems vs

def eraseMembers : List (String × Value) → List (String × Value)
  | [] => []
  | (k, v) :: members => (k, eraseLogicalTypes v) :: eraseMembers members

end

/-- `apache_avro::schema_compatibility::Compatibility`. -/
inductive Compatibility where
  | full
  | partially
  deriving DecidableEq, Repr

variable (L : Libs)

/-- `avro::check`.  `canRead` is the library's `SchemaCompatibility::can_read`, on the writer
and the reader. -/
def check (canRead : L.ApacheAvroSchema → L.ApacheAvroSchema → Except String Compatibility)
    (reader writer : String) (readerRefs writerRefs : List ResolvedReference) :
    Except (List String) Unit := do
  let label (who : String) (e : String) : List String := [who ++ ": Avro: " ++ e]
  let readerValue ← (L.serdeJson.fromStr reader).mapError (label "reader")
  let writerValue ← (L.serdeJson.fromStr writer).mapError (label "writer")
  let values := applyReaderRules (eraseLogicalTypes readerValue) (eraseLogicalTypes writerValue)
  let parse (who : String) (value : Value) (refs : List ResolvedReference) :=
    (avroParse L (Json.toJsonString L.serdeJson value) refs).mapError fun e =>
      [who ++ ": " ++ Failure.display e]
  let readerSchema ← parse "reader" values.1 readerRefs
  let writerSchema ← parse "writer" values.2 writerRefs
  match canRead writerSchema.parsed readerSchema.parsed with
  | .ok .full => .ok ()
  | .ok .partially => .error ["reader resolves only part of what the writer can produce"]
  | .error e => .error [e]

/-! ## Replaced members -/

/-- `as_str` answers for strings and nothing else. -/
theorem asStr_eq_some {v : Value} {s : String} : v.asStr = some s ↔ v = .string s := by
  cases v <;> simp [Value.asStr]

/-- `as_array` answers for arrays and nothing else. -/
theorem asArray_eq_some {v : Value} {items : List Value} :
    v.asArray = some items ↔ v = .array items := by
  cases v <;> simp [Value.asArray]

/-- A string member is a member that is a string. -/
theorem getStr_eq_some {key s : String} {members : Members} :
    getStr key members = some s ↔ members.lookup key = some (.string s) := by
  simp [getStr, Option.bind_eq_some_iff, asStr_eq_some]

/-- An array member is a member that is an array. -/
theorem getArray_eq_some {key : String} {items : List Value} {members : Members} :
    getArray key members = some items ↔ members.lookup key = some (.array items) := by
  simp [getArray, Option.bind_eq_some_iff, asArray_eq_some]

/-- Assigning a member that is there changes it and no other; a key that is absent stays absent,
since the rules only assign to members they have just read. -/
theorem lookup_setMember (key other : String) (v : Value) (members : Members) :
    (setMember key v members).lookup other =
      if other = key then (members.lookup key).map fun _ => v else members.lookup other := by
  induction members with
  | nil => simp [setMember]
  | cons m members ih =>
    obtain ⟨k, x⟩ := m
    rw [setMember]
    by_cases hk : k = key
    · subst hk
      by_cases ho : other = k
      · simp [ho]
      · simp [ho, List.lookup_cons, beq_false_of_ne ho]
    · rw [if_neg hk, List.lookup_cons, ih]
      by_cases ho : other = k
      · subst ho
        simp [hk]
      · simp [List.lookup_cons, beq_false_of_ne ho, beq_false_of_ne (Ne.symm hk)]

/-- The other members keep their values. -/
theorem lookup_setMember_ne {key other : String} (h : other ≠ key) (v : Value)
    (members : Members) : (setMember key v members).lookup other = members.lookup other := by
  rw [lookup_setMember, if_neg h]

/-- Assigning the value a member has changes nothing. -/
theorem setMember_self {key : String} {v : Value} {members : Members}
    (h : members.lookup key = some v) : setMember key v members = members := by
  induction members with
  | nil => rfl
  | cons m members ih =>
    obtain ⟨k, x⟩ := m
    rw [setMember]
    by_cases hk : k = key
    · subst hk
      obtain rfl : x = v := by simpa using h
      rw [if_pos rfl]
    · rw [if_neg hk, ih]
      simpa [List.lookup_cons, beq_false_of_ne (Ne.symm hk)] using h

/-- A replaced value shows. -/
theorem setMember_eq_iff {key : String} {v x : Value} {members : Members}
    (h : members.lookup key = some x) : setMember key v members = members ↔ v = x := by
  constructor
  · intro heq
    have hlookup := lookup_setMember key key v members
    rw [heq, if_pos rfl, h] at hlookup
    exact (Option.some.inj hlookup).symm
  · rintro rfl
    exact setMember_self h

/-- The same for a field of a record: it is unchanged exactly when the assigned value is the one it
had. -/
theorem setValue_eq_iff {key : String} {v x : Value} {field : Value}
    (h : field.get key = some x) : setValue key v field = field ↔ v = x := by
  obtain ⟨members, rfl, hlookup⟩ := Value.get_eq_some h
  rw [setValue, Value.object.injEq]
  exact setMember_eq_iff hlookup

/-- The other attributes of a field keep their values. -/
theorem get_setValue_ne {key other : String} (h : other ≠ key) (v field : Value) :
    (setValue key v field).get other = field.get other := by
  cases field with
  | object members => exact lookup_setMember_ne h v members
  | _ => rfl

/-- What was assigned is read back. -/
theorem getArray_setMember {key : String} {items items' : List Value} {members : Members}
    (h : getArray key members = some items) :
    getArray key (setMember key (.array items') members) = some items' := by
  rw [getArray, lookup_setMember, if_pos rfl, getArray_eq_some.mp h]
  rfl

/-- The same for an attribute of a field, where there was one. -/
theorem get_setValue (key : String) (v field : Value) :
    (setValue key v field).get key = (field.get key).map fun _ => v := by
  cases field with
  | object members =>
    rw [setValue, Value.get_object, lookup_setMember, if_pos rfl]
    rfl
  | _ => rfl

/-- A field keeps its name when its type is assigned. -/
@[simp] theorem fieldName_setType (v field : Value) :
    fieldName (setValue "type" v field) = fieldName field := by
  rw [fieldName, fieldName, get_setValue_ne (by decide)]

/-! ## The two rules -/

section Rules

variable {reader writer : Members}

/-- A rename needs two different names, the writer's being among the reader's aliases. -/
theorem renames_eq_some {name : String} (h : renames reader writer = some name) :
    ∃ old aliases, getStr "name" reader = some name ∧ getStr "name" writer = some old ∧
      getArray "aliases" reader = some aliases ∧ name ≠ old ∧ .string old ∈ aliases := by
  obtain ⟨readerName, hreader, h⟩ := Option.bind_eq_some_iff.mp h
  obtain ⟨writerName, hwriter, h⟩ := Option.bind_eq_some_iff.mp h
  obtain ⟨aliases, haliases, h⟩ := Option.bind_eq_some_iff.mp h
  split at h
  · next hcond =>
    obtain rfl := Option.some.inj h
    obtain ⟨hne, hany⟩ := hcond
    obtain ⟨a, ha, hold⟩ := List.any_eq_true.mp hany
    rw [decide_eq_true_iff, asStr_eq_some] at hold
    exact ⟨writerName, aliases, hreader, hwriter, haliases, hne, hold ▸ ha⟩
  · cases h

/-- Equal names rename nothing. -/
theorem renames_same (h : reader.lookup "name" = writer.lookup "name") :
    renames reader writer = none := by
  by_contra hsome
  obtain ⟨name, hname⟩ := Option.ne_none_iff_exists'.mp hsome
  obtain ⟨old, -, hnew, hold, -, hne, -⟩ := renames_eq_some hname
  rw [getStr, h, ← getStr] at hnew
  exact hne (Option.some.inj (hnew.symm.trans hold))

/-- Taking the reader's name leaves every other member of the writer alone. -/
theorem lookup_takeName {key : String} (h : key ≠ "name") :
    (takeName reader writer).lookup key = writer.lookup key := by
  unfold takeName
  split
  · exact lookup_setMember_ne h _ _
  · rfl

/-- A taken name shows. -/
theorem lookup_takeName_iff :
    (takeName reader writer).lookup "name" = writer.lookup "name" ↔
      renames reader writer = none := by
  unfold takeName
  split
  · next name hname =>
    obtain ⟨old, _, _, hold, _, hne, _⟩ := renames_eq_some hname
    rw [lookup_setMember, if_pos rfl, getStr_eq_some.mp hold]
    simp [hname, hne]
  · next hnone => simp [hnone]

/-- Without a rename the writer is untouched. -/
theorem takeName_of_none (h : renames reader writer = none) : takeName reader writer = writer := by
  rw [takeName, h]

/-- The pushed list has the symbols of both sides. -/
theorem mem_pushSymbols {readerSymbols writerSymbols : List Value} {x : Value} :
    x ∈ pushSymbols readerSymbols writerSymbols ↔ x ∈ readerSymbols ∨ x ∈ writerSymbols := by
  unfold pushSymbols
  induction writerSymbols generalizing readerSymbols with
  | nil => simp
  | cons symbol symbols ih =>
    rw [List.foldl_cons, ih]
    split
    · next hmem =>
      rw [List.mem_cons]
      constructor
      · rintro (h | h)
        · exact .inl h
        · exact .inr (.inr h)
      · rintro (h | rfl | h)
        · exact .inl h
        · exact .inl hmem
        · exact .inr h
    · simp only [List.mem_append, List.mem_cons, List.not_mem_nil, or_false, or_assoc]

/-- Nothing is pushed exactly when the reader already has all the writer's symbols. -/
theorem pushSymbols_eq_iff {readerSymbols writerSymbols : List Value} :
    pushSymbols readerSymbols writerSymbols = readerSymbols ↔
      ∀ symbol ∈ writerSymbols, symbol ∈ readerSymbols := by
  constructor
  · intro heq symbol hsymbol
    rw [← heq, mem_pushSymbols]
    exact .inr hsymbol
  · intro h
    unfold pushSymbols
    induction writerSymbols with
    | nil => rfl
    | cons symbol symbols ih =>
      rw [List.foldl_cons, if_pos (h symbol List.mem_cons_self)]
      exact ih fun x hx => h x (List.mem_cons_of_mem _ hx)

/-- The reader's enum has a default for a symbol of the writer's that it lacks. -/
def Adopts (reader writer : Members) : Prop :=
  getStr "type" reader = some "enum" ∧ getStr "type" writer = some "enum" ∧
    ∃ default readerSymbols writerSymbols, getStr "default" reader = some default ∧
      getArray "symbols" reader = some readerSymbols ∧
      getArray "symbols" writer = some writerSymbols ∧ .string default ∈ readerSymbols ∧
      ∃ symbol ∈ writerSymbols, symbol ∉ readerSymbols

/-- An enum with the same symbols adopts none. -/
theorem not_adopts_same (h : reader.lookup "symbols" = writer.lookup "symbols") :
    ¬ Adopts reader writer := by
  rintro ⟨-, -, -, readerSymbols, writerSymbols, -, hreader, hwriter, -, symbol, hsymbol, hnot⟩
  rw [getArray, h, ← getArray] at hreader
  obtain rfl := Option.some.inj (hreader.symm.trans hwriter)
  exact hnot hsymbol

/-- What the rule does: nothing, or it puts the writer's symbols behind the reader's. -/
theorem adoptSymbols_cases :
    adoptSymbols reader writer = reader ∧ ¬ Adopts reader writer ∨
    ∃ readerSymbols writerSymbols, getArray "symbols" reader = some readerSymbols ∧
      getArray "symbols" writer = some writerSymbols ∧
      (Adopts reader writer ↔ ∃ symbol ∈ writerSymbols, symbol ∉ readerSymbols) ∧
      adoptSymbols reader writer =
        setMember "symbols" (.array (pushSymbols readerSymbols writerSymbols)) reader := by
  unfold adoptSymbols
  split
  · next htypes =>
    split
    · next default writerSymbols readerSymbols hdefault hwriter hreader =>
      -- The conditions of the source, once the lists and the default are read.
      have hadopts : Adopts reader writer ↔ .string default ∈ readerSymbols ∧
          ∃ symbol ∈ writerSymbols, symbol ∉ readerSymbols := by
        simp [Adopts, htypes.1, htypes.2, hdefault, hwriter, hreader]
      have hany : (readerSymbols.any fun symbol => symbol.asStr = some default) = true ↔
          .string default ∈ readerSymbols := by
        simp [asStr_eq_some]
      split
      · next h =>
        refine .inr ⟨readerSymbols, writerSymbols, hreader, hwriter, ?_, rfl⟩
        rw [hadopts, and_iff_right (hany.mp h)]
      · next h => exact .inl ⟨rfl, fun hadopt => h (hany.mpr (hadopts.mp hadopt).1)⟩
    · next hnone =>
      refine .inl ⟨rfl, ?_⟩
      rintro ⟨-, -, default, readerSymbols, writerSymbols, hdefault, hreader, hwriter, -⟩
      exact hnone default writerSymbols readerSymbols hdefault hwriter hreader
  · next htypes => exact .inl ⟨rfl, fun hadopt => htypes ⟨hadopt.1, hadopt.2.1⟩⟩

/-- Adoption touches the symbols alone. -/
theorem lookup_adoptSymbols {key : String} (h : key ≠ "symbols") :
    (adoptSymbols reader writer).lookup key = reader.lookup key := by
  rcases @adoptSymbols_cases reader writer with ⟨hsame, _⟩ | ⟨_, _, _, _, _, hset⟩
  · rw [hsame]
  · rw [hset]
    exact lookup_setMember_ne h _ _

/-- The writer's name has no part in the symbols. -/
theorem adoptSymbols_takeName (other : Members) :
    adoptSymbols reader (takeName other writer) = adoptSymbols reader writer := by
  have htype : getStr "type" (takeName other writer) = getStr "type" writer := by
    rw [getStr, getStr, lookup_takeName (by decide)]
  have hsymbols : getArray "symbols" (takeName other writer) = getArray "symbols" writer := by
    rw [getArray, getArray, lookup_takeName (by decide)]
  simp only [adoptSymbols, htype, hsymbols]

/-- An adopted symbol shows. -/
theorem lookup_adoptSymbols_iff :
    (adoptSymbols reader writer).lookup "symbols" = reader.lookup "symbols" ↔
      ¬ Adopts reader writer := by
  rcases @adoptSymbols_cases reader writer with ⟨hsame, hnot⟩ |
    ⟨_, _, hreader, _, hadopts, hset⟩
  · exact iff_of_true (by rw [hsame]) hnot
  · rw [hset, hadopts, lookup_setMember, if_pos rfl, getArray_eq_some.mp hreader]
    simp only [Option.map_some, Option.some.injEq, Value.array.injEq, pushSymbols_eq_iff]
    push Not
    rfl

/-- Where `Adopts` fails the reader is untouched. -/
theorem adoptSymbols_of_not (h : ¬ Adopts reader writer) : adoptSymbols reader writer = reader := by
  rcases @adoptSymbols_cases reader writer with ⟨hsame, _⟩ | ⟨_, _, hreader, _, hadopts, hset⟩
  · exact hsame
  · rw [hadopts] at h
    push Not at h
    rw [hset, pushSymbols_eq_iff.mpr h]
    exact setMember_self (getArray_eq_some.mp hreader)

end Rules

/-! ## One level of the walk -/

/-- The first field of a name. -/
def named (name : String) (fields : List Value) : Option Value :=
  fields.find? fun field => fieldName field = some name

/-- No field is found exactly when none has the name. -/
theorem named_eq_none {name : String} {fields : List Value} :
    named name fields = none ↔ ∀ field ∈ fields, fieldName field ≠ some name := by
  simp [named]

/-- What is found is the first field with the name, so the list splits there. -/
theorem named_eq_some {name : String} {fields : List Value} {field : Value} :
    named name fields = some field ↔ fieldName field = some name ∧
      ∃ before after, fields = before ++ field :: after ∧
        ∀ other ∈ before, fieldName other ≠ some name := by
  simp [named, List.find?_eq_some_iff_append]

/-- With distinct names, a field is found by its name. -/
theorem named_of_mem {name : String} {fields : List Value} {field : Value}
    (hnames : (fields.filterMap fieldName).Nodup) (hmem : field ∈ fields)
    (hname : fieldName field = some name) : named name fields = some field := by
  obtain ⟨before, after, rfl⟩ := List.append_of_mem hmem
  refine named_eq_some.mpr ⟨hname, before, after, rfl, fun other hother h => ?_⟩
  rw [List.filterMap_append, List.filterMap_cons_some hname, List.nodup_append] at hnames
  exact hnames.2.2 name (List.mem_filterMap.mpr ⟨other, hother, h⟩) name List.mem_cons_self rfl

section Level

variable {rules : Value → Value → Value × Value}

/-- Where both fields have a type, the rules are applied to the pair of types. -/
theorem ruleTypes_of_types {f g readerType writerType : Value}
    (hf : f.get "type" = some readerType) (hg : g.get "type" = some writerType) :
    ruleTypes rules f g = (setValue "type" (rules readerType writerType).1 f,
      setValue "type" (rules readerType writerType).2 g) := by
  simp only [ruleTypes, hf, hg]

/-- A pair of fields is unchanged exactly when the rules leave its types alone. -/
theorem ruleTypes_eq_iff {f g : Value} :
    ruleTypes rules f g = (f, g) ↔ ∀ readerType writerType, f.get "type" = some readerType →
      g.get "type" = some writerType → rules readerType writerType = (readerType, writerType) := by
  unfold ruleTypes
  split
  · next readerType writerType hf hg =>
    rw [Prod.mk.injEq, setValue_eq_iff hf, setValue_eq_iff hg, ← Prod.mk.injEq]
    constructor
    · intro h rt wt hrt hwt
      obtain rfl := Option.some.inj (hf.symm.trans hrt)
      obtain rfl := Option.some.inj (hg.symm.trans hwt)
      exact h
    · exact fun h => h _ _ hf hg
  · next hnone => exact iff_of_true rfl fun rt wt hrt hwt => (hnone rt wt hrt hwt).elim

/-- The rules work on the types, so both fields keep their names. -/
theorem fieldName_ruleTypes (f g : Value) :
    fieldName (ruleTypes rules f g).1 = fieldName f ∧
      fieldName (ruleTypes rules f g).2 = fieldName g := by
  unfold ruleTypes
  split <;> simp

/-- A field the writer does not have meets no rule. -/
theorem ruleField_none {f : Value} {name : String} {fields : List Value}
    (h : named name fields = none) : ruleField rules f name fields = (f, fields) := by
  rw [named_eq_none] at h
  induction fields with
  | nil => rfl
  | cons g fields ih =>
    obtain ⟨hg, h⟩ := List.forall_mem_cons.mp h
    simp only [ruleField, if_neg hg, ih h]

/-- The writer's first field of the name is rewritten in place. -/
theorem ruleField_split {f g : Value} {name : String} {before after : List Value}
    (hbefore : ∀ other ∈ before, fieldName other ≠ some name) (hg : fieldName g = some name) :
    ruleField rules f name (before ++ g :: after) =
      ((ruleTypes rules f g).1, before ++ (ruleTypes rules f g).2 :: after) := by
  induction before with
  | nil => simp only [List.nil_append, ruleField, if_pos hg]
  | cons other before ih =>
    obtain ⟨hother, hbefore⟩ := List.forall_mem_cons.mp hbefore
    simp only [List.cons_append, ruleField, if_neg hother, ih hbefore]

/-- The same from what `named` finds. The rewritten field is found again, since its name is kept. -/
theorem ruleField_some {f g : Value} {name : String} {fields : List Value}
    (h : named name fields = some g) : ∃ before after, fields = before ++ g :: after ∧
      ruleField rules f name fields =
        ((ruleTypes rules f g).1, before ++ (ruleTypes rules f g).2 :: after) ∧
      named name (ruleField rules f name fields).2 = some (ruleTypes rules f g).2 := by
  obtain ⟨hg, before, after, rfl, hbefore⟩ := named_eq_some.mp h
  refine ⟨before, after, rfl, ruleField_split hbefore hg, ?_⟩
  rw [ruleField_split hbefore hg]
  exact named_eq_some.mpr ⟨(fieldName_ruleTypes f g).2.trans hg, before, after, rfl, hbefore⟩

/-- The fields of other names stay as they are. -/
theorem named_ruleField {f : Value} {name other : String} {fields : List Value}
    (hne : other ≠ name) :
    named other (ruleField rules f name fields).2 = named other fields := by
  cases h : named name fields with
  | none => rw [ruleField_none h]
  | some g =>
    obtain ⟨hg, before, after, rfl, hbefore⟩ := named_eq_some.mp h
    have hname : fieldName (ruleTypes rules f g).2 = some name := (fieldName_ruleTypes f g).2.trans hg
    rw [ruleField_split hbefore hg]
    simp [named, List.find?_append, hname, hg, Ne.symm hne]

/-- The walk over the reader's fields hands the rewritten writer on to the next field. -/
theorem ruleFields_named {f : Value} {name : String} (h : fieldName f = some name)
    (readerFields writerFields : List Value) :
    ruleFields rules (f :: readerFields) writerFields =
      ((ruleField rules f name writerFields).1 ::
          (ruleFields rules readerFields (ruleField rules f name writerFields).2).1,
        (ruleFields rules readerFields (ruleField rules f name writerFields).2).2) := by
  simp only [ruleFields, h]

/-- A field without a name is passed over. -/
theorem ruleFields_nameless {f : Value} (h : fieldName f = none)
    (readerFields writerFields : List Value) :
    ruleFields rules (f :: readerFields) writerFields =
      (f :: (ruleFields rules readerFields writerFields).1,
        (ruleFields rules readerFields writerFields).2) := by
  simp only [ruleFields, h]

/-- A name that the reader does not use stays with its field. -/
theorem named_ruleFields {name : String} {readerFields writerFields : List Value}
    (h : ∀ f ∈ readerFields, fieldName f ≠ some name) :
    named name (ruleFields rules readerFields writerFields).2 = named name writerFields := by
  induction readerFields generalizing writerFields with
  | nil => rfl
  | cons f readerFields ih =>
    obtain ⟨hf, h⟩ := List.forall_mem_cons.mp h
    cases hname : fieldName f with
    | none => rw [ruleFields_nameless hname, ih h]
    | some other =>
      rw [ruleFields_named hname, ih h, named_ruleField]
      rintro rfl
      exact hf hname

/-- The fields of distinct names do not get in each other's way. So a walk leaves both lists as they
are exactly when every pair of fields of one name is left as it is. -/
theorem ruleFields_eq_iff {readerFields writerFields : List Value}
    (hnames : (readerFields.filterMap fieldName).Nodup) :
    ruleFields rules readerFields writerFields = (readerFields, writerFields) ↔
      ∀ f ∈ readerFields, ∀ name g, fieldName f = some name → named name writerFields = some g →
        ruleTypes rules f g = (f, g) := by
  induction readerFields with
  | nil => simp [ruleFields]
  | cons f readerFields ih =>
    rw [List.forall_mem_cons]
    cases hname : fieldName f with
    | none =>
      rw [List.filterMap_cons_none hname] at hnames
      rw [ruleFields_nameless hname, Prod.mk.injEq, List.cons.injEq, ← ih hnames]
      simp [Prod.ext_iff]
    | some name =>
      rw [List.filterMap_cons_some hname, List.nodup_cons] at hnames
      -- Names are distinct, so the remaining fields of the reader do not meet this one's partner.
      have hothers : ∀ f' ∈ readerFields, fieldName f' ≠ some name :=
        fun f' hf' h => hnames.1 (List.mem_filterMap.mpr ⟨f', hf', h⟩)
      rw [ruleFields_named hname, ← ih hnames.2]
      cases hg : named name writerFields with
      | none =>
        have hnone : ∀ name' g, some name = some name' → named name' writerFields = some g →
            ruleTypes rules f g = (f, g) := by
          intro name' g hname' hg'
          obtain rfl := Option.some.inj hname'
          rw [hg] at hg'
          cases hg'
        rw [and_iff_right hnone, ruleField_none hg, Prod.mk.injEq, List.cons.injEq, Prod.ext_iff]
        simp only [true_and]
      | some g =>
        obtain ⟨before, after, hfields, hrule, hfound⟩ :
            ∃ before after, writerFields = before ++ g :: after ∧
              ruleField rules f name writerFields =
                ((ruleTypes rules f g).1, before ++ (ruleTypes rules f g).2 :: after) ∧
              named name (ruleField rules f name writerFields).2 = some (ruleTypes rules f g).2 :=
          ruleField_some hg
        constructor
        · intro h
          obtain ⟨hcons, hrest⟩ := Prod.mk.injEq .. ▸ h
          obtain ⟨hfirst, hothersEq⟩ := List.cons.inj hcons
          -- No later field of the reader changes the field back.
          have hsame : named name
              (ruleFields rules readerFields (ruleField rules f name writerFields).2).2 =
                named name (ruleField rules f name writerFields).2 := named_ruleFields hothers
          rw [hrest, hg, hfound] at hsame
          have htypes : ruleTypes rules f g = (f, g) := by
            rw [hrule] at hfirst
            exact Prod.ext hfirst (Option.some.inj hsame).symm
          rw [hrule, htypes, ← hfields] at hothersEq hrest
          refine ⟨?_, Prod.ext hothersEq hrest⟩
          intro name' g' hname' hg'
          obtain rfl := Option.some.inj hname'
          obtain rfl := Option.some.inj (hg.symm.trans hg')
          exact htypes
        · rintro ⟨hf, hrest⟩
          rw [hrule, hf name g rfl hg, ← hfields, hrest]

end Level

/-! ## The walk -/

section Walk

/-- The walk goes from a pair to a pair below it. -/
inductive Step : Value × Value → Value × Value → Prop where
  | branch {readers writers : List Value} {p : Value × Value} :
    p ∈ readers.zip writers → Step (.array readers, .array writers) p
  | field {reader writer : Members} {readerFields writerFields : List Value} {f g : Value}
      {name : String} {p : Value × Value} :
    getArray "fields" reader = some readerFields → getArray "fields" writer = some writerFields →
    f ∈ readerFields → fieldName f = some name → named name writerFields = some g →
    f.get "type" = some p.1 → g.get "type" = some p.2 → Step (.object reader, .object writer) p

/-- One of the rules has something to do at the pair. -/
def Acts (p : Value × Value) : Prop :=
  ∃ reader writer, p = (.object reader, .object writer) ∧
    (renames reader writer ≠ none ∨ Adopts reader writer)

/-- The rules have nothing to do, at any depth they reach. -/
def Inert (reader writer : Value) : Prop :=
  ∀ p, Relation.ReflTransGen Step (reader, writer) p → ¬ Acts p

/-- The schemas inside a schema that the walk can reach. -/
inductive Below : Value → Value → Prop where
  | branch {items : List Value} {v : Value} : v ∈ items → Below (.array items) v
  | field {members : Members} {fields : List Value} {f t : Value} :
    getArray "fields" members = some fields → f ∈ fields → f.get "type" = some t →
    Below (.object members) t

/-- The fields of each record have distinct names. -/
def UniqueFields (v : Value) : Prop :=
  ∀ members fields, Relation.ReflTransGen Below v (.object members) →
    getArray "fields" members = some fields → (fields.filterMap fieldName).Nodup

/-- Nothing acts below a pair exactly when nothing acts on it and nothing acts below what a step
reaches. -/
theorem inert_iff {reader writer : Value} :
    Inert reader writer ↔
      ¬ Acts (reader, writer) ∧ ∀ p, Step (reader, writer) p → Inert p.1 p.2 := by
  constructor
  · exact fun h => ⟨h _ .refl, fun p hp q hq => h q (.head hp hq)⟩
  · rintro ⟨hacts, hbelow⟩ q hq
    rcases Relation.ReflTransGen.cases_head hq with rfl | ⟨p, hp, hq⟩
    · exact hacts
    · exact hbelow p hp q hq

/-- A step of the rules goes down on both sides. -/
theorem Step.below {p q : Value × Value} (h : Step p q) : Below p.1 q.1 := by
  cases h with
  | branch hmem => exact .branch (List.of_mem_zip hmem).1
  | field hreader _ hf _ _ htype _ => exact .field hreader hf htype

/-- Distinct field names are required at every depth, so they hold of what lies below. -/
theorem UniqueFields.below {v v' : Value} (h : UniqueFields v) (hv : Below v v') :
    UniqueFields v' :=
  fun members fields hm => h members fields (.head hv hm)

/-- Two lists are unchanged exactly when every pair of branches at the same position is. -/
theorem ruleItems_eq_iff {rules : Value → Value → Value × Value} {readers writers : List Value} :
    ruleItems rules readers writers = (readers, writers) ↔
      ∀ p ∈ readers.zip writers, rules p.1 p.2 = p := by
  induction readers generalizing writers with
  | nil => simp [ruleItems]
  | cons reader readers ih =>
    cases writers with
    | nil => simp [ruleItems]
    | cons writer writers =>
      rw [List.zip_cons_cons, List.forall_mem_cons, ← ih]
      simp only [ruleItems, Prod.ext_iff, List.cons.injEq]
      tauto

section Members

variable {rules : Value → Value → Value × Value} {reader writer : Members}

/-- The symbols are adopted before and after the name is taken. -/
theorem ruleMembers_eq : ruleMembers rules reader writer =
    ruleRecords rules (adoptSymbols reader writer) (takeName reader writer) := by
  rw [ruleMembers, adoptSymbols_takeName]

/-- Below a record only the fields are rewritten. -/
theorem lookup_ruleRecords {key : String} (h : key ≠ "fields") :
    (ruleRecords rules reader writer).1.lookup key = reader.lookup key ∧
      (ruleRecords rules reader writer).2.lookup key = writer.lookup key := by
  unfold ruleRecords
  split
  · exact ⟨lookup_setMember_ne h _ _, lookup_setMember_ne h _ _⟩
  · exact ⟨rfl, rfl⟩

/-- The fields are left as they are if nothing happens below them. -/
theorem ruleRecords_eq_iff
    (hnames : ∀ fields, getArray "fields" reader = some fields →
      (fields.filterMap fieldName).Nodup) :
    ruleRecords rules reader writer = (reader, writer) ↔
      ∀ p, Step (.object reader, .object writer) p → rules p.1 p.2 = p := by
  unfold ruleRecords
  split
  · next readerFields writerFields hreader hwriter =>
    rw [Prod.mk.injEq, setMember_eq_iff (getArray_eq_some.mp hreader),
      setMember_eq_iff (getArray_eq_some.mp hwriter), Value.array.injEq, Value.array.injEq,
      ← Prod.mk.injEq, ruleFields_eq_iff (hnames _ hreader)]
    simp only [ruleTypes_eq_iff]
    constructor
    -- A step below two records is a field with a partner; its lists are the two just read.
    · intro h p hp
      cases hp with
      | field hreader' hwriter' hf hname hg hft hgt =>
        obtain rfl := Option.some.inj (hreader.symm.trans hreader')
        obtain rfl := Option.some.inj (hwriter.symm.trans hwriter')
        exact h _ hf _ _ hname hg _ _ hft hgt
    · intro h f hf name g hname hg rt wt hft hgt
      exact h (rt, wt) (.field hreader hwriter hf hname hg hft hgt)
  · next hnone =>
    refine iff_of_true rfl ?_
    intro p hp
    cases hp with
    | field hreader hwriter _ _ _ _ _ => exact (hnone _ _ hreader hwriter).elim

/-- A pair of objects is unchanged exactly when no rule acts on it and none acts on what its fields
reach. Renames, adopted symbols and fields are three members, so no rule undoes another. -/
theorem ruleMembers_eq_iff
    (hnames : ∀ fields, getArray "fields" reader = some fields →
      (fields.filterMap fieldName).Nodup) :
    ruleMembers rules reader writer = (reader, writer) ↔
      ¬ Acts (.object reader, .object writer) ∧
        ∀ p, Step (.object reader, .object writer) p → rules p.1 p.2 = p := by
  have hacts : ¬ Acts (.object reader, .object writer) ↔
      renames reader writer = none ∧ ¬ Adopts reader writer := by
    simp [Acts, eq_comm]
  rw [ruleMembers_eq, hacts]
  constructor
  · intro h
    -- What a rule changes is still there after the fields.
    have hname : (ruleRecords rules (adoptSymbols reader writer)
        (takeName reader writer)).2.lookup "name" = _ := (lookup_ruleRecords (by decide)).2
    have hsymbols : (ruleRecords rules (adoptSymbols reader writer)
        (takeName reader writer)).1.lookup "symbols" = _ := (lookup_ruleRecords (by decide)).1
    rw [h] at hname hsymbols
    have hrenames := lookup_takeName_iff.mp hname.symm
    have hadopts := lookup_adoptSymbols_iff.mp hsymbols.symm
    rw [takeName_of_none hrenames, adoptSymbols_of_not hadopts, ruleRecords_eq_iff hnames] at h
    exact ⟨⟨hrenames, hadopts⟩, h⟩
  · rintro ⟨⟨hrenames, hadopts⟩, h⟩
    rwa [takeName_of_none hrenames, adoptSymbols_of_not hadopts, ruleRecords_eq_iff hnames]

end Members

/-- One level leaves a pair as it is if neither rule acts and the levels below do. -/
theorem ruleLevel_eq_iff {rules : Value → Value → Value × Value} {reader writer : Value}
    (hunique : UniqueFields reader) :
    ruleLevel rules reader writer = (reader, writer) ↔
      ¬ Acts (reader, writer) ∧ ∀ p, Step (reader, writer) p → rules p.1 p.2 = p := by
  -- Where the shapes differ there is no step, no rule and no change.
  have hother : (∀ p, ¬ Step (reader, writer) p) → ¬ Acts (reader, writer) →
      ruleLevel rules reader writer = (reader, writer) →
      (ruleLevel rules reader writer = (reader, writer) ↔
        ¬ Acts (reader, writer) ∧ ∀ p, Step (reader, writer) p → rules p.1 p.2 = p) :=
    fun hstep hacts heq => iff_of_true heq ⟨hacts, fun p hp => (hstep p hp).elim⟩
  cases reader with
  | object reader =>
    cases writer with
    | object writer =>
      rw [ruleLevel, ← ruleMembers_eq_iff fun fields => hunique reader fields .refl]
      simp [Prod.ext_iff]
    | _ => exact hother (fun p hp => nomatch hp) (fun ⟨_, _, h, _⟩ => by cases h) rfl
  | array readers =>
    cases writer with
    | array writers =>
      have hacts : ¬ Acts (.array readers, .array writers) := fun ⟨_, _, h, _⟩ => by cases h
      have hstep : (∀ p, Step (.array readers, .array writers) p → rules p.1 p.2 = p) ↔
          ∀ p ∈ readers.zip writers, rules p.1 p.2 = p := by
        apply forall_congr'
        intro p
        refine ⟨fun h hp => h (.branch hp), fun h hp => ?_⟩
        cases hp with
        | branch hmem => exact h hmem
      rw [ruleLevel, hstep, ← ruleItems_eq_iff]
      simp [Prod.ext_iff, hacts]
    | _ => exact hother (fun p hp => nomatch hp) (fun ⟨_, _, h, _⟩ => by cases h) rfl
  | _ => exact hother (fun p hp => nomatch hp) (fun ⟨_, _, h, _⟩ => by cases h) (by simp [ruleLevel])

end Walk

/-! ### The depth of the walk -/

/-- A branch of a union is less deep than the union. -/
theorem depth_item {items : List Value} {v : Value} (h : v ∈ items) :
    depth v < depth (.array items) := by
  rw [depth]
  induction items with
  | nil => cases h
  | cons w items ih =>
    rw [depthItems]
    rcases List.mem_cons.mp h with rfl | h
    · omega
    · have := ih h
      omega

/-- A member is less deep than its object. -/
theorem depth_lookup {key : String} {v : Value} {members : Members}
    (h : members.lookup key = some v) : depth v < depth (.object members) := by
  rw [depth]
  induction members with
  | nil => cases h
  | cons m members ih =>
    obtain ⟨k, w⟩ := m
    rw [depthMembers]
    by_cases hk : key = k
    · obtain rfl : w = v := by simpa [hk] using h
      omega
    · have := ih (by simpa [List.lookup_cons, beq_false_of_ne hk] using h)
      omega

/-- An attribute is less deep than its field. -/
theorem depth_get {key : String} {v t : Value} (h : v.get key = some t) : depth t < depth v := by
  obtain ⟨members, rfl, hlookup⟩ := Value.get_eq_some h
  exact depth_lookup hlookup

/-- Each step down loses depth, which is what the recursion counts. -/
theorem Below.depth_lt {v v' : Value} (h : Below v v') : depth v' < depth v := by
  cases h with
  | branch hmem => exact depth_item hmem
  | field hfields hf htype =>
    exact (depth_get htype).trans ((depth_item hf).trans (depth_lookup (getArray_eq_some.mp hfields)))

section Congr

variable {f g : Value → Value → Value × Value}

/-- What the rules do to a pair of fields depends only on what they do to the reader's type. -/
theorem ruleTypes_congr {r : Value} (h : ∀ t, r.get "type" = some t → ∀ w, f t w = g t w)
    (w : Value) : ruleTypes f r w = ruleTypes g r w := by
  unfold ruleTypes
  split
  · next readerType writerType hr _ => rw [h readerType hr]
  · rfl

/-- The same for one field against the writer's list. -/
theorem ruleField_congr {r : Value} (h : ∀ t, r.get "type" = some t → ∀ w, f t w = g t w)
    (name : String) (ws : List Value) : ruleField f r name ws = ruleField g r name ws := by
  induction ws with
  | nil => rfl
  | cons w ws ih => rw [ruleField, ruleField, ruleTypes_congr h, ih]

/-- The same for the whole list of fields. -/
theorem ruleFields_congr {rs : List Value}
    (h : ∀ r ∈ rs, ∀ t, r.get "type" = some t → ∀ w, f t w = g t w) (ws : List Value) :
    ruleFields f rs ws = ruleFields g rs ws := by
  induction rs generalizing ws with
  | nil => rfl
  | cons r rs ih =>
    obtain ⟨hr, h⟩ := List.forall_mem_cons.mp h
    cases hname : fieldName r with
    | none => rw [ruleFields_nameless hname, ruleFields_nameless hname, ih h]
    | some name =>
      rw [ruleFields_named hname, ruleFields_named hname, ruleField_congr hr, ih h]

/-- The same for the branches of a union. -/
theorem ruleItems_congr {rs : List Value} (h : ∀ r ∈ rs, ∀ w, f r w = g r w) (ws : List Value) :
    ruleItems f rs ws = ruleItems g rs ws := by
  induction rs generalizing ws with
  | nil => rfl
  | cons r rs ih =>
    obtain ⟨hr, h⟩ := List.forall_mem_cons.mp h
    cases ws with
    | nil => rfl
    | cons w ws => simp only [ruleItems, hr, ih h]

/-- One level of the rules consults the rules below it only at what lies below the reader, which is
why a fuel of the reader's depth is enough. -/
theorem ruleLevel_congr {r : Value} (h : ∀ v, Below r v → ∀ w, f v w = g v w) (w : Value) :
    ruleLevel f r w = ruleLevel g r w := by
  cases r with
  | array rs =>
    cases w with
    | array ws => rw [ruleLevel, ruleLevel, ruleItems_congr fun r hr => h r (.branch hr)]
    | _ => rfl
  | object reader =>
    cases w with
    | object writer =>
      -- The records are walked after the symbols are adopted, and adoption keeps the fields.
      have hrecords : ruleRecords f (adoptSymbols reader writer) (takeName reader writer) =
          ruleRecords g (adoptSymbols reader writer) (takeName reader writer) := by
        unfold ruleRecords
        split
        · next readerFields writerFields hreader _ =>
          rw [getArray, lookup_adoptSymbols (by decide), ← getArray] at hreader
          rw [ruleFields_congr fun r hr t ht => h t (.field hreader hr ht)]
        · rfl
      rw [ruleLevel, ruleLevel, ruleMembers_eq, ruleMembers_eq, hrecords]
    | _ => rfl
  | _ => simp [ruleLevel]

end Congr

/-- A walk that may go deeper than the reader goes no deeper. -/
theorem rulesWithin_eq {n : ℕ} {r : Value} (h : depth r ≤ n) (w : Value) :
    rulesWithin n r w = applyReaderRules r w := by
  -- Any two sufficient amounts of fuel agree, the depth of the reader being one.
  suffices hsame : ∀ n m r, depth r ≤ n → depth r ≤ m → ∀ w, rulesWithin n r w = rulesWithin m r w from
    hsame n _ r h le_rfl w
  intro n
  induction n with
  | zero =>
    intro m r hn _ w
    -- A value without depth holds nothing.
    cases m with
    | zero => rfl
    | succ m =>
      cases r with
      | array _ => simp [depth] at hn
      | object _ => simp [depth] at hn
      | _ => simp [rulesWithin, ruleLevel]
  | succ n ih =>
    intro m r hn hm w
    cases m with
    | zero =>
      cases r with
      | array _ => simp [depth] at hm
      | object _ => simp [depth] at hm
      | _ => simp [rulesWithin, ruleLevel]
    | succ m =>
      rw [rulesWithin, rulesWithin]
      apply ruleLevel_congr
      intro v hv w
      have hlt := hv.depth_lt
      exact ih m v (by omega) (by omega) w

/-- The walk, level by level. -/
theorem applyReaderRules_eq (r w : Value) :
    applyReaderRules r w = ruleLevel applyReaderRules r w := by
  rw [← rulesWithin_eq (Nat.le_succ (depth r)), rulesWithin]
  apply ruleLevel_congr
  intro v hv w
  exact rulesWithin_eq hv.depth_lt.le w

/-- The rules change nothing exactly where they have nothing to do. -/
theorem applyReaderRules_eq_iff {r w : Value} (hunique : UniqueFields r) :
    applyReaderRules r w = (r, w) ↔ Inert r w := by
  induction hd : depth r using Nat.strong_induction_on generalizing r w with
  | _ d ih =>
    rw [applyReaderRules_eq, ruleLevel_eq_iff hunique, inert_iff]
    have hbelow : ∀ p, Step (r, w) p → (applyReaderRules p.1 p.2 = p ↔ Inert p.1 p.2) := by
      intro p hp
      have hlt : depth p.1 < depth r := hp.below.depth_lt
      exact ih (depth p.1) (by omega) (hunique.below hp.below) rfl
    constructor
    · exact fun ⟨hacts, h⟩ => ⟨hacts, fun p hp => (hbelow p hp).mp (h p hp)⟩
    · exact fun ⟨hacts, h⟩ => ⟨hacts, fun p hp => (hbelow p hp).mpr (h p hp)⟩

/-- A schema has nothing to learn from itself. -/
theorem UniqueFields.inert {v : Value} (hunique : UniqueFields v) : Inert v v := by
  induction hd : depth v using Nat.strong_induction_on generalizing v with
  | _ d ih =>
    rw [inert_iff]
    constructor
    · rintro ⟨reader, writer, heq, hacts⟩
      obtain ⟨hreader, hwriter⟩ := Prod.mk.inj heq
      obtain rfl : reader = writer := Value.object.inj (hreader.symm.trans hwriter)
      rcases hacts with hrenames | hadopts
      · exact hrenames (renames_same rfl)
      · exact not_adopts_same rfl hadopts
    · intro p hp
      -- A step from a schema against itself pairs a part with itself.
      have hsame : p.1 = p.2 := by
        cases hp with
        | branch hmem => exact Json.zip_self_eq hmem
        | field hreader hwriter hf hname hg hft hgt =>
          obtain rfl := Option.some.inj (hreader.symm.trans hwriter)
          have hfound := named_of_mem (hunique _ _ .refl hreader) hf hname
          obtain rfl := Option.some.inj (hfound.symm.trans hg)
          exact Option.some.inj (hft.symm.trans hgt)
      have hlt : depth p.1 < depth v := hp.below.depth_lt
      rw [← hsame]
      exact ih (depth p.1) (by omega) (hunique.below hp.below) rfl

end KrabkaRegistry.Format.Avro
