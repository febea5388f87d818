import KrabkaRegistry.Basic

/-!
# JSON Values and the JSON Schema Format

`serde_json` is an external library: its reader and its printing of strings and
numbers are parameters, collected in `SerdeJson`.  The compact printer of a whole
value and the recursively key-sorted `canonicalize` of `format/json/mod.rs` are
definitions over them.
-/

namespace KrabkaRegistry.Format.Json

/-- A JSON number.  A float is known only by the token it prints as. -/
inductive Number where
  | int (n : Int)
  | float (token : String)
  deriving DecidableEq, Repr

/-- `serde_json::Value`.  An object lists its members in key order, as the library's
map iterates. -/
inductive Value where
  | null
  | bool (b : Bool)
  | number (n : Number)
  | string (s : String)
  | array (items : List Value)
  | object (members : List (String × Value))

mutual

/-- Equality of values, as derived. -/
def Value.equal : Value → Value → Bool
  | .null, .null => true
  | .bool a, .bool b => a = b
  | .number a, .number b => a = b
  | .string a, .string b => a = b
  | .array as, .array bs => Value.equalItems as bs
  | .object as, .object bs => Value.equalMembers as bs
  | _, _ => false

def Value.equalItems : List Value → List Value → Bool
  | [], [] => true
  | a :: as, b :: bs => a.equal b && Value.equalItems as bs
  | _, _ => false

def Value.equalMembers : List (String × Value) → List (String × Value) → Bool
  | [], [] => true
  | (k, a) :: as, (l, b) :: bs => k = l && a.equal b && Value.equalMembers as bs
  | _, _ => false

end

/-- The parts of `serde_json` that decide what a document is and how it prints. -/
structure SerdeJson where
  /-- `serde_json::from_str::<Value>`. -/
  fromStr : String → Except String Value
  /-- `serde_json::to_string` on a string. -/
  strToString : String → String
  /-- `serde_json::to_string` on a number. -/
  numToString : Number → String
  /-- Strings print with every control character escaped. -/
  strToString_no_nul : ∀ s, '\x00' ∉ (strToString s).toList
  /-- Numbers print as digits, signs, dots and exponents. -/
  numToString_no_nul : ∀ n, '\x00' ∉ (numToString n).toList

variable (J : SerdeJson)

/-! ## Printing -/

mutual

/-- `serde_json::to_string` on a value: compact, members in map order. -/
def toJsonString : Value → String
  | .null => "null"
  | .bool b => if b then "true" else "false"
  | .number n => J.numToString n
  | .string s => J.strToString s
  | .array items => "[" ++ ",".intercalate (itemStrings items) ++ "]"
  | .object members => "\x7b" ++ ",".intercalate (memberStrings members) ++ "\x7d"

def itemStrings : List Value → List String
  | [] => []
  | v :: vs => toJsonString v :: itemStrings vs

def memberStrings : List (String × Value) → List String
  | [] => []
  | (k, v) :: ms => (J.strToString k ++ ":" ++ toJsonString v) :: memberStrings ms

end

mutual

/-- The canonical form: compact JSON with the keys of every object sorted. -/
def canonicalize : Value → String
  | .object members =>
    let sorted := (canonicalMembers members).insertionSort fun a b => a.1 ≤ b.1
    "\x7b" ++ ",".intercalate (sorted.map fun m => J.strToString m.1 ++ ":" ++ m.2) ++ "\x7d"
  | .array items => "[" ++ ",".intercalate (canonicalItems items) ++ "]"
  | other => toJsonString J other

def canonicalItems : List Value → List String
  | [] => []
  | v :: vs => canonicalize v :: canonicalItems vs

/-- Each member with its key unprinted, so that the members can be sorted by key. -/
def canonicalMembers : List (String × Value) → List (String × String)
  | [] => []
  | (k, v) :: ms => (k, canonicalize v) :: canonicalMembers ms

end

/-! ## Parsing a JSON Schema -/

/-- A parsed JSON Schema: the document and the reference documents that parse. -/
structure JsonSchema where
  value : Value
  refs : List (String × Value)

/-- `json::parse`. -/
def parse (schema : String) (refs : List ResolvedReference) : Result JsonSchema :=
  match J.fromStr schema with
  | .error e => .error (.error (.invalidSchema ("JSON Schema: " ++ e)))
  | .ok value =>
    match value with
    | .object _ | .bool _ =>
      .ok ⟨value, refs.filterMap fun r =>
        match J.fromStr r.schema with
        | .ok v => some (r.name, v)
        | .error _ => none⟩
    | _ => .error (.error (.invalidSchema "JSON Schema must be an object or boolean"))

/-- The canonical form leaves references as written: only the document counts. -/
def JsonSchema.canonicalForm (p : JsonSchema) : String := canonicalize J p.value

/-! ## Printed documents have no U+0000

The store joins canonical forms with other texts by control characters, so it
matters that no canonical form holds one itself. -/

/-- A string without U+0000. -/
def NulFree (s : String) : Prop := '\x00' ∉ s.toList

theorem NulFree.append {s t : String} (hs : NulFree s) (ht : NulFree t) : NulFree (s ++ t) := by
  simp only [NulFree, String.toList_append, List.mem_append, not_or] at hs ht ⊢
  exact ⟨hs, ht⟩

theorem NulFree.intercalate {sep : String} (hsep : NulFree sep) :
    ∀ {l : List String}, (∀ s ∈ l, NulFree s) → NulFree (sep.intercalate l) := by
  intro l
  induction l with
  | nil => intro _; simp [NulFree]
  | cons a l ih =>
    intro h
    cases l with
    | nil => simpa using h a List.mem_cons_self
    | cons b l =>
      rw [String.intercalate_cons_cons]
      exact ((h a List.mem_cons_self).append hsep).append
        (ih fun s hs => h s (List.mem_cons_of_mem _ hs))

mutual

theorem toJsonString_nulFree : ∀ v : Value, NulFree (toJsonString J v)
  | .null => by simp [toJsonString, NulFree]
  | .bool b => by cases b <;> simp [toJsonString, NulFree]
  | .number n => by rw [toJsonString]; exact J.numToString_no_nul n
  | .string s => by rw [toJsonString]; exact J.strToString_no_nul s
  | .array items => by
    rw [toJsonString]
    exact (NulFree.append (by simp [NulFree])
      (NulFree.intercalate (by simp [NulFree]) (itemStrings_nulFree items))).append
      (by simp [NulFree])
  | .object members => by
    rw [toJsonString]
    exact (NulFree.append (by simp [NulFree])
      (NulFree.intercalate (by simp [NulFree]) (memberStrings_nulFree members))).append
      (by simp [NulFree])

theorem itemStrings_nulFree : ∀ (vs : List Value), ∀ s ∈ itemStrings J vs, NulFree s
  | [] => by simp [itemStrings]
  | v :: vs => by
    intro s hs
    simp only [itemStrings, List.mem_cons] at hs
    rcases hs with rfl | hs
    · exact toJsonString_nulFree v
    · exact itemStrings_nulFree vs s hs

theorem memberStrings_nulFree :
    ∀ (ms : List (String × Value)), ∀ s ∈ memberStrings J ms, NulFree s
  | [] => by simp [memberStrings]
  | (k, v) :: ms => by
    intro s hs
    simp only [memberStrings, List.mem_cons] at hs
    rcases hs with rfl | hs
    · exact (NulFree.append (J.strToString_no_nul k) (by simp [NulFree])).append
        (toJsonString_nulFree v)
    · exact memberStrings_nulFree ms s hs

end

mutual

theorem canonicalize_nulFree : ∀ v : Value, NulFree (canonicalize J v)
  | .null => by simpa [canonicalize] using toJsonString_nulFree J .null
  | .bool b => by simpa [canonicalize] using toJsonString_nulFree J (.bool b)
  | .number n => by simpa [canonicalize] using toJsonString_nulFree J (.number n)
  | .string s => by simpa [canonicalize] using toJsonString_nulFree J (.string s)
  | .array items => by
    rw [canonicalize]
    exact (NulFree.append (by simp [NulFree])
      (NulFree.intercalate (by simp [NulFree]) (canonicalItems_nulFree items))).append
      (by simp [NulFree])
  | .object members => by
    rw [canonicalize]
    refine (NulFree.append (by simp [NulFree])
      (NulFree.intercalate (by simp [NulFree]) ?_)).append (by simp [NulFree])
    intro s hs
    simp only [List.mem_map, List.mem_insertionSort] at hs
    obtain ⟨m, hm, rfl⟩ := hs
    exact (NulFree.append (J.strToString_no_nul m.1) (by simp [NulFree])).append
      (canonicalMembers_nulFree members m hm)

theorem canonicalItems_nulFree : ∀ (vs : List Value), ∀ s ∈ canonicalItems J vs, NulFree s
  | [] => by simp [canonicalItems]
  | v :: vs => by
    intro s hs
    simp only [canonicalItems, List.mem_cons] at hs
    rcases hs with rfl | hs
    · exact canonicalize_nulFree v
    · exact canonicalItems_nulFree vs s hs

theorem canonicalMembers_nulFree :
    ∀ (ms : List (String × Value)), ∀ m ∈ canonicalMembers J ms, NulFree m.2
  | [] => by simp [canonicalMembers]
  | (k, v) :: ms => by
    intro m hm
    simp only [canonicalMembers, List.mem_cons] at hm
    rcases hm with rfl | hm
    · exact canonicalize_nulFree v
    · exact canonicalMembers_nulFree ms m hm

end

end KrabkaRegistry.Format.Json
