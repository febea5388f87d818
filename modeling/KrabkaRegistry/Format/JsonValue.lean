import KrabkaRegistry.Format.Json
import KrabkaRegistry.Library.Binary64

/-!
# Reading JSON Values

The accessors of `serde_json::Value` that the JSON Schema diff uses, JSON pointers, and the
values that lie inside a value.
-/

namespace KrabkaRegistry.Format.Json

namespace Value

/-! ## Equality -/

mutual

theorem equal_iff : ∀ a b : Value, a.equal b = true ↔ a = b
  | .null, b => by cases b <;> simp [equal]
  | .bool x, b => by cases b <;> simp [equal]
  | .number x, b => by cases b <;> simp [equal]
  | .string x, b => by cases b <;> simp [equal]
  | .array as, b => by
    cases b with
    | array bs => simpa [equal] using equalItems_iff as bs
    | _ => simp [equal]
  | .object as, b => by
    cases b with
    | object bs => simpa [equal] using equalMembers_iff as bs
    | _ => simp [equal]

theorem equalItems_iff : ∀ as bs : List Value, equalItems as bs = true ↔ as = bs
  | [], bs => by cases bs <;> simp [equalItems]
  | a :: as, bs => by
    cases bs with
    | nil => simp [equalItems]
    | cons b bs => simp [equalItems, equal_iff a b, equalItems_iff as bs]

theorem equalMembers_iff : ∀ as bs : List (String × Value), equalMembers as bs = true ↔ as = bs
  | [], bs => by cases bs <;> simp [equalMembers]
  | (k, a) :: as, bs => by
    cases bs with
    | nil => simp [equalMembers]
    | cons b bs =>
      obtain ⟨l, b⟩ := b
      simp [equalMembers, equal_iff a b, equalMembers_iff as bs, and_assoc]

end

instance : DecidableEq Value := fun a b => decidable_of_iff _ (equal_iff a b)

/-! ## Accessors -/

/-- `Value::get` with a key. -/
def get (v : Value) (key : String) : Option Value :=
  match v with
  | .object members => members.lookup key
  | _ => none

def asStr : Value → Option String
  | .string s => some s
  | _ => none

def asBool : Value → Option Bool
  | .bool b => some b
  | _ => none

def asArray : Value → Option (List Value)
  | .array items => some items
  | _ => none

def asObject : Value → Option (List (String × Value))
  | .object members => some members
  | _ => none

def isArray (v : Value) : Bool := v.asArray.isSome

def isObject (v : Value) : Bool := v.asObject.isSome

def isBoolean (v : Value) : Bool := v.asBool.isSome

/-- The value of a float token such as `-1.5e-7`, rounded to a double. -/
def floatValue (token : String) : ℚ :=
  let negative := token.toList.head? = some '-'
  let digits := if negative then token.toList.tail else token.toList
  let mantissa := digits.takeWhile (· ≠ 'e')
  let power := (digits.dropWhile (· ≠ 'e')).tail
  let exponent : ℤ :=
    if power.head? = some '-' then -(Nat.ofDigitChars 10 power.tail 0 : ℤ)
    else (Nat.ofDigitChars 10 (power.filter Char.isDigit) 0 : ℤ)
  let whole := mantissa.takeWhile Char.isDigit
  let fraction := (mantissa.dropWhile Char.isDigit).tail
  let magnitude : ℚ := (Nat.ofDigitChars 10 (whole ++ fraction) 0 : ℕ) *
    (10 : ℚ) ^ (exponent - fraction.length)
  Library.Binary64.roundToDouble (if negative then -magnitude else magnitude)

/-- `Value::as_f64`: an integer is rounded to the nearest double. -/
def asF64 : Value → Option ℚ
  | .number (.int n) => some (Library.Binary64.roundToDouble n)
  | .number (.float token) => some (floatValue token)
  | _ => none

@[simp] theorem get_object (members : List (String × Value)) (key : String) :
    (object members).get key = members.lookup key := rfl

/-- Only an object has members. -/
theorem get_eq_some {v x : Value} {key : String} (h : v.get key = some x) :
    ∃ members, v = .object members ∧ members.lookup key = some x := by
  cases v with
  | object members => exact ⟨members, rfl, h⟩
  | _ => simp [get] at h

/-- An object is no list. -/
theorem asArray_of_isObject {v : Value} (h : v.isObject = true) : v.asArray = none := by
  cases v with
  | array items => simp [isObject, asObject] at h
  | _ => rfl

theorem isArray_of_isObject {v : Value} (h : v.isObject = true) : v.isArray = false := by
  rw [isArray, asArray_of_isObject h]
  rfl

/-! ## JSON pointers -/

/-- Replace each pair `a b` by `c`, from left to right. -/
def replacePair (a b c : Char) : List Char → List Char
  | x :: y :: rest =>
    if x = a ∧ y = b then c :: replacePair a b c rest else x :: replacePair a b c (y :: rest)
  | rest => rest

/-- An array index: digits without a leading zero. -/
def parseIndex (token : List Char) : Option ℕ :=
  if token.isEmpty ∨ ¬ token.all Char.isDigit ∨ token.head? = some '0' ∧ token.length ≠ 1 then none
  else some (Nat.ofDigitChars 10 token 0)

/-- One token of a pointer. -/
def child (v : Value) (token : List Char) : Option Value :=
  match v with
  | .object members => members.lookup (String.ofList token)
  | .array items => (parseIndex token).bind (items[·]?)
  | _ => none

/-- A token with its escapes undone. -/
def decodeToken (token : List Char) : List Char :=
  replacePair '~' '0' '~' (replacePair '~' '1' '/' token)

/-- Follow the tokens of a pointer. -/
def descend (v : Value) (tokens : List (List Char)) : Option Value :=
  tokens.foldlM (fun v token => v.child (decodeToken token)) v

/-- `Value::pointer`. -/
def pointer (v : Value) (ptr : List Char) : Option Value :=
  match ptr with
  | [] => some v
  | '/' :: rest => v.descend (rest.splitOn '/')
  | _ => none

theorem pointer_slash (v : Value) (rest : List Char) :
    v.pointer ('/' :: rest) = v.descend (rest.splitOn '/') := rfl

theorem descend_cons (v : Value) (token : List Char) (tokens : List (List Char)) :
    v.descend (token :: tokens) = (v.child (decodeToken token)).bind (·.descend tokens) := rfl

/-- A pointer is empty, or starts with a slash. -/
theorem pointer_other {v : Value} {c : Char} {rest : List Char} (h : c ≠ '/') :
    v.pointer (c :: rest) = none := by
  unfold pointer
  split
  · contradiction
  · rename_i heq
    exact absurd (List.cons.inj heq).1 h
  · rfl

/-! ## Values inside a value -/

/-- `Sub a v`: the value `a` is `v` or lies inside it. -/
inductive Sub (a : Value) : Value → Prop where
  | refl : Sub a a
  | item {items : List Value} {v : Value} : v ∈ items → Sub a v → Sub a (.array items)
  | member {members : List (String × Value)} {m : String × Value} :
      m ∈ members → Sub a m.2 → Sub a (.object members)

theorem Sub.trans {a b v : Value} (hab : Sub a b) (hbv : Sub b v) : Sub a v := by
  induction hbv with
  | refl => exact hab
  | item hmem _ ih => exact .item hmem ih
  | member hmem _ ih => exact .member hmem ih

theorem lookup_mem {members : List (String × Value)} {key : String} {x : Value}
    (h : members.lookup key = some x) : (key, x) ∈ members := by
  obtain ⟨before, after, rfl, _⟩ := List.lookup_eq_some_iff.mp h
  simp

theorem sub_of_get {v x : Value} {key : String} (h : v.get key = some x) : Sub x v := by
  obtain ⟨members, rfl, hlookup⟩ := get_eq_some h
  exact .member (lookup_mem hlookup) .refl

theorem sub_of_child {v x : Value} {token : List Char} (h : v.child token = some x) :
    Sub x v := by
  cases v with
  | object members => exact .member (lookup_mem h) .refl
  | array items =>
    obtain ⟨index, -, hindex⟩ := Option.bind_eq_some_iff.mp h
    exact .item (List.mem_of_getElem? hindex) .refl
  | _ => simp [child] at h

theorem sub_of_pointer {v x : Value} {ptr : List Char} (h : v.pointer ptr = some x) :
    Sub x v := by
  unfold pointer at h
  split at h
  · obtain rfl := Option.some.inj h
    exact .refl
  · rename_i rest
    generalize rest.splitOn '/' = tokens at h
    -- Each token leads to a value inside the one before.
    induction tokens generalizing v with
    | nil =>
      obtain rfl : v = x := Option.some.inj h
      exact .refl
    | cons token tokens ih =>
      rw [descend_cons] at h
      obtain ⟨y, hy, hrest⟩ := Option.bind_eq_some_iff.mp h
      exact (ih hrest).trans (sub_of_child hy)
  · cases h

/-- The sizes decrease inwards. -/
theorem sizeOf_item {items : List Value} {v : Value} (h : v ∈ items) :
    sizeOf v < sizeOf (array items) := by
  have := List.sizeOf_lt_of_mem h
  simp only [array.sizeOf_spec]
  omega

theorem sizeOf_member {members : List (String × Value)} {m : String × Value} (h : m ∈ members) :
    sizeOf m.2 < sizeOf (object members) := by
  have hmem := List.sizeOf_lt_of_mem h
  have hpair : sizeOf m.2 < sizeOf m := by
    cases m
    simp only [Prod.mk.sizeOf_spec]
    omega
  simp only [object.sizeOf_spec]
  omega

theorem sizeOf_get {v x : Value} {key : String} (h : v.get key = some x) : sizeOf x < sizeOf v := by
  obtain ⟨members, rfl, hlookup⟩ := get_eq_some h
  exact sizeOf_member (lookup_mem hlookup)

/-- The keys of every object inside are distinct, as the library's maps have them. -/
def Distinct (v : Value) : Prop :=
  ∀ members, Sub (.object members) v → (members.map (·.1)).Nodup

theorem Distinct.sub {a v : Value} (h : Distinct v) (ha : Sub a v) : Distinct a :=
  fun members hm => h members (hm.trans ha)

theorem lookup_of_mem {members : List (String × Value)} (hd : (members.map (·.1)).Nodup)
    {m : String × Value} (h : m ∈ members) : members.lookup m.1 = some m.2 := by
  induction members with
  | nil => simp at h
  | cons m' members ih =>
    obtain ⟨k', x'⟩ := m'
    obtain ⟨k, x⟩ := m
    simp only [List.map_cons, List.nodup_cons] at hd
    rcases List.mem_cons.mp h with heq | hmem
    · cases heq
      simp
    · have hne : k ≠ k' := by
        intro heq
        exact hd.1 (heq ▸ List.mem_map_of_mem (f := Prod.fst) hmem)
      have hfalse : (k == k') = false := by simpa using hne
      simp only [List.lookup_cons, hfalse]
      exact ih hd.2 hmem

end Value

/-- A list zipped with itself pairs each value with itself. -/
theorem zip_self_eq {items : List Value} {p : Value × Value} (h : p ∈ items.zip items) :
    p.1 = p.2 := by
  induction items with
  | nil => simp at h
  | cons v items ih =>
    rw [List.zip_cons_cons] at h
    rcases List.mem_cons.mp h with rfl | h
    · rfl
    · exact ih h

end KrabkaRegistry.Format.Json
