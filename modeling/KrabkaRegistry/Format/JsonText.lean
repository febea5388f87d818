import Mathlib
import KrabkaRegistry.Format.Parse

/-!
# JSON Documents as Bytes

`serde_json::to_vec` prints a document and `serde_json::from_slice` reads one.  What a slice
reads as is a parameter: the document, its members in the order of the text and with
duplicates kept, as the library hands them to the type that is being read.  `FaithfulJson`
says what is relied on, that a printed document reads as itself.

`readDocument` is a reader of compact documents that satisfies it, without floats.
-/

namespace KrabkaRegistry.Format.Json

variable (J : SerdeJson) (fromSlice : ByteArray → Option Value)

/-- `serde_json::to_vec`. -/
def toVec (v : Value) : ByteArray := (toJsonString J v).toUTF8

/-- The documents whose numbers are read as they are printed: integers of at most 64 bits,
and each float that the reader finds again. -/
inductive ReadsBack : Value → Prop where
  | null : ReadsBack .null
  | bool (b : Bool) : ReadsBack (.bool b)
  | int {n : Int} : -2 ^ 63 ≤ n → n < 2 ^ 64 → ReadsBack (.number (.int n))
  | float {token : String} :
      fromSlice (toVec J (.number (.float token))) = some (.number (.float token)) →
      ReadsBack (.number (.float token))
  | string (s : String) : ReadsBack (.string s)
  | array {items : List Value} : (∀ v ∈ items, ReadsBack v) → ReadsBack (.array items)
  | object {members : List (String × Value)} : (∀ m ∈ members, ReadsBack m.2) →
      ReadsBack (.object members)

/-- A string that `serde_json` prints without escapes. -/
def Plain (s : String) : Prop := ∀ c ∈ s.toList, escapeChar c = [c]

instance : DecidablePred Plain := fun s =>
  List.decidableBAll (fun c => escapeChar c = [c]) s.toList

/-- Strings, integers, arrays and objects are printed and read faithfully. -/
structure FaithfulJson : Prop where
  reads : ∀ {v}, ReadsBack J fromSlice v → fromSlice (toVec J v) = some v
  plain : ∀ {s}, Plain s → J.strToString s = "\"" ++ s ++ "\""
  int : ∀ n, J.numToString (.int n) = toString n

variable {J} {fromSlice}

/-- Documents that print the same are the same. -/
theorem FaithfulJson.toVec_inj (h : FaithfulJson J fromSlice) {v w : Value}
    (hv : ReadsBack J fromSlice v) (hw : ReadsBack J fromSlice w) :
    toVec J v = toVec J w ↔ v = w := by
  constructor
  · intro heq
    have hread := h.reads hv
    rw [heq, h.reads hw] at hread
    exact (Option.some.inj hread).symm
  · rintro rfl
    rfl

/-! ## `serde_json::Value`

A value of the library's own type holds each object as a map, so the members of a document
are sorted and the last of several members with one key stays. -/

mutual

/-- Read a document as a `serde_json::Value`. -/
def asValue : Value → Value
  | .array items => .array (asItems items)
  | .object members => .object (Std.ExtTreeMap.ofList (asMembers members) compare).toList
  | v => v

def asItems : List Value → List Value
  | [] => []
  | v :: vs => asValue v :: asItems vs

def asMembers : List (String × Value) → List (String × Value)
  | [] => []
  | (k, v) :: ms => (k, asValue v) :: asMembers ms

end

/-- The values that the library's type holds: every object lists a map. -/
inductive IsValue : Value → Prop where
  | null : IsValue .null
  | bool (b : Bool) : IsValue (.bool b)
  | number (n : Number) : IsValue (.number n)
  | string (s : String) : IsValue (.string s)
  | array {items : List Value} : (∀ v ∈ items, IsValue v) → IsValue (.array items)
  | object (map : BTreeMap String Value) : (∀ m ∈ map.toList, IsValue m.2) →
      IsValue (.object map.toList)

/-- Items that are values already stay as they are. -/
private theorem asItems_eq {items : List Value} (h : ∀ v ∈ items, asValue v = v) :
    asItems items = items := by
  induction items with
  | nil => rfl
  | cons v items ih =>
    rw [asItems, h v List.mem_cons_self, ih fun w hw => h w (List.mem_cons_of_mem v hw)]

/-- Members whose values are values already stay as they are. -/
theorem asMembers_eq {members : List (String × Value)} (h : ∀ m ∈ members, asValue m.2 = m.2) :
    asMembers members = members := by
  induction members with
  | nil => rfl
  | cons m members ih =>
    obtain ⟨k, v⟩ := m
    have hv : asValue v = v := h (k, v) List.mem_cons_self
    rw [asMembers, hv, ih fun n hn => h n (List.mem_cons_of_mem _ hn)]

/-- A value of the library's type is read as itself. -/
theorem IsValue.asValue_eq {v : Value} (h : IsValue v) : asValue v = v := by
  induction h with
  | null => rfl
  | bool b => rfl
  | number n => rfl
  | string s => rfl
  | array _ ih => rw [asValue, asItems_eq ih]
  | object map _ ih => rw [asValue, asMembers_eq ih, BTreeMap.ofList_toList]

/-! ## A reader of compact documents -/

/-- The value of a hexadecimal digit. -/
def hexValue (c : Char) : Option ℕ :=
  if '0' ≤ c ∧ c ≤ '9' then some (c.toNat - 48)
  else if 'a' ≤ c ∧ c ≤ 'f' then some (c.toNat - 87)
  else if 'A' ≤ c ∧ c ≤ 'F' then some (c.toNat - 55)
  else none

/-- The character that an escape letter stands for. -/
def unescape : Char → Option Char
  | '"' => some '"'
  | '\\' => some '\\'
  | '/' => some '/'
  | 'n' => some '\n'
  | 'r' => some '\r'
  | 't' => some '\t'
  | 'b' => some '\x08'
  | 'f' => some '\x0c'
  | _ => none

/-- The character with four hexadecimal digits.  Pairs of surrogates are not read. -/
def readUnicode (a b c d : Char) : Option Char := do
  let n := (((← hexValue a) * 16 + (← hexValue b)) * 16 + (← hexValue c)) * 16 + (← hexValue d)
  if n.isValidChar then some (Char.ofNat n) else none

/-- A string after its opening quote, and what follows it. -/
def readString : List Char → Option (List Char × List Char)
  | [] => none
  | '"' :: rest => some ([], rest)
  | '\\' :: 'u' :: a :: b :: c :: d :: rest => do
    let x ← readUnicode a b c d
    let (s, rest) ← readString rest
    return (x :: s, rest)
  | '\\' :: c :: rest => do
    let x ← unescape c
    let (s, rest) ← readString rest
    return (x :: s, rest)
  | c :: rest =>
    if c.toNat < 32 then none
    else do
      let (s, rest) ← readString rest
      return (c :: s, rest)

/-- An integer, and what follows it. -/
def readInt (negative : Bool) (cs : List Char) : Option (Value × List Char) :=
  let digits := cs.takeWhile Char.isDigit
  let n : Int := Nat.ofDigitChars 10 digits 0
  let n := if negative then -n else n
  if digits.isEmpty ∨ n < -2 ^ 63 ∨ 2 ^ 64 ≤ n then none
  else some (.number (.int n), cs.dropWhile Char.isDigit)

/-- One of the words `null`, `true` and `false`, after its first letter. -/
def readWord (letters : List Char) (v : Value) (cs : List Char) : Option (Value × List Char) :=
  if letters.isPrefixOf cs then some (v, cs.drop letters.length) else none

mutual

def readValue : ℕ → List Char → Option (Value × List Char)
  | 0, _ => none
  | _, [] => none
  | fuel + 1, c :: cs =>
    if c = 'n' then readWord ['u', 'l', 'l'] .null cs
    else if c = 't' then readWord ['r', 'u', 'e'] (.bool true) cs
    else if c = 'f' then readWord ['a', 'l', 's', 'e'] (.bool false) cs
    else if c = '"' then (readString cs).map fun p => (.string (String.ofList p.1), p.2)
    else if c = '[' then
      if cs.head? = some ']' then some (.array [], cs.tail)
      else (readItems fuel cs).map fun p => (.array p.1, p.2)
    else if c = '\x7b' then
      if cs.head? = some '\x7d' then some (.object [], cs.tail)
      else (readMembers fuel cs).map fun p => (.object p.1, p.2)
    else if c = '-' then readInt true cs
    else readInt false (c :: cs)

/-- The items of an array, with its closing bracket. -/
def readItems : ℕ → List Char → Option (List Value × List Char)
  | 0, _ => none
  | fuel + 1, cs =>
    match readValue fuel cs with
    | some (v, ',' :: rest) => (readItems fuel rest).map fun p => (v :: p.1, p.2)
    | some (v, ']' :: rest) => some ([v], rest)
    | _ => none

/-- The members of an object, with its closing brace. -/
def readMembers : ℕ → List Char → Option (List (String × Value) × List Char)
  | 0, _ => none
  | fuel + 1, '"' :: cs =>
    match readString cs with
    | some (k, ':' :: cs) =>
      match readValue fuel cs with
      | some (v, ',' :: rest) =>
        (readMembers fuel rest).map fun p => ((String.ofList k, v) :: p.1, p.2)
      | some (v, '\x7d' :: rest) => some ([(String.ofList k, v)], rest)
      | _ => none
    | _ => none
  | _ + 1, _ => none

end

/-- Read a whole text. -/
def readText (cs : List Char) : Option Value :=
  match readValue (cs.length + 1) cs with
  | some (v, []) => some v
  | _ => none

/-- Read a slice: its text has to be UTF-8. -/
def readDocument (bytes : ByteArray) : Option Value :=
  (String.fromUTF8? bytes).bind fun s => readText s.toList

/-! ## Strings are read back -/

/-- A hexadecimal digit is read back. -/
theorem hexValue_hexDigit {n : ℕ} (h : n < 16) : hexValue (hexDigit n) = some n := by
  have hall : ∀ k : Fin 16, hexValue (hexDigit k) = some k.val := by decide
  exact hall ⟨n, h⟩

/-- A control character is read from its two digits. -/
private theorem readUnicode_control {c : Char} (h : c.toNat < 32) :
    readUnicode '0' '0' (hexDigit (c.toNat / 16)) (hexDigit (c.toNat % 16)) = some c := by
  have hzero : hexValue '0' = some 0 := by decide
  have hsum : c.toNat / 16 * 16 + c.toNat % 16 = c.toNat := by omega
  have hvalid : c.toNat.isValidChar := c.valid
  simp [readUnicode, hzero, hexValue_hexDigit (n := c.toNat / 16) (by omega),
    hexValue_hexDigit (n := c.toNat % 16) (by omega), hsum, hvalid]

/-- One escaped character is read back as itself. -/
theorem readString_escapeChar (c : Char) (rest : List Char) :
    readString (escapeChar c ++ rest) = (readString rest).map fun p => (c :: p.1, p.2) := by
  have hmap : ∀ x : Char, (do
      let p ← readString rest
      return (x :: p.1, p.2)) = (readString rest).map fun p => (x :: p.1, p.2) := by
    intro x
    cases readString rest <;> rfl
  apply escapeChar_cases
    (P := fun c cs => readString (cs ++ rest) = (readString rest).map fun p => (c :: p.1, p.2))
  case control =>
    intro c h
    simp [readString, readUnicode_control h, ← hmap]
  case plain =>
    intro c h₁ h₂ h₃
    rw [List.singleton_append, readString.eq_def]
    split <;> simp_all
  all_goals simp [readString, unescape, ← hmap]

/-- So is a whole string, up to its closing quote. -/
theorem readString_escaped (s rest : List Char) :
    readString (s.flatMap escapeChar ++ '"' :: rest) = some (s, rest) := by
  induction s with
  | nil => simp [readString]
  | cons c s ih => simp [readString_escapeChar, ih]

/-! ## Numbers are read back -/

/-- What follows a number does not continue it. -/
def NoDigit (rest : List Char) : Prop := ∀ c ∈ rest.head?, c.isDigit = false

/-- The digits end where the rest begins. -/
private theorem digits_append {digits rest : List Char} (hd : ∀ c ∈ digits, c.isDigit = true)
    (hrest : NoDigit rest) :
    (digits ++ rest).takeWhile Char.isDigit = digits ∧
      (digits ++ rest).dropWhile Char.isDigit = rest := by
  have hstop : rest.takeWhile Char.isDigit = [] ∧ rest.dropWhile Char.isDigit = rest := by
    cases rest with
    | nil => exact ⟨rfl, rfl⟩
    | cons c rest =>
      have hc : c.isDigit = false := hrest c rfl
      simp [hc]
  rw [List.takeWhile_append_of_pos hd, List.dropWhile_append_of_pos hd, hstop.1, hstop.2]
  simp

/-- An integer in the range of the source's two integer types is read back, sign included. -/
theorem readInt_digits {n : ℕ} {rest : List Char} (hrest : NoDigit rest) (negative : Bool)
    {m : Int} (hm : m = if negative then -(n : Int) else n) (hlow : -2 ^ 63 ≤ m)
    (hhigh : m < 2 ^ 64) :
    readInt negative (Nat.toDigits 10 n ++ rest) = some (.number (.int m), rest) := by
  have hdigits : ∀ c ∈ Nat.toDigits 10 n, c.isDigit = true := fun c hc =>
    Nat.isDigit_of_mem_toDigits (by decide) (by decide) hc
  obtain ⟨htake, hdrop⟩ := digits_append hdigits hrest
  have hne : (Nat.toDigits 10 n).isEmpty = false := by simp [Nat.toDigits_ne_nil]
  unfold readInt
  simp only [htake, hdrop, Nat.ofDigitChars_ten_toDigits, ← hm]
  rw [if_neg]
  rw [hne, not_or, not_or]
  exact ⟨by decide, not_lt.mpr hlow, not_le.mpr hhigh⟩

/-- The first digit of a number starts no other kind of value. -/
private theorem readValue_digits {n fuel : ℕ} {rest : List Char} :
    readValue (fuel + 1) (Nat.toDigits 10 n ++ rest) =
      readInt false (Nat.toDigits 10 n ++ rest) := by
  cases hd : Nat.toDigits 10 n with
  | nil => exact absurd hd Nat.toDigits_ne_nil
  | cons c digits =>
    have hc : c.isDigit = true :=
      Nat.isDigit_of_mem_toDigits (b := 10) (n := n) (by decide) (by decide) (by simp [hd])
    have hother : ∀ x : Char, x.isDigit = false → c ≠ x := by
      rintro x hx rfl
      simp [hc] at hx
    simp [readValue, hother 'n' (by decide), hother 't' (by decide), hother 'f' (by decide),
      hother '"' (by decide), hother '[' (by decide), hother '\x7b' (by decide),
      hother '-' (by decide)]

/-! ## Values are read back -/

/-- The printed value as characters. -/
def printed (v : Value) : List Char := (toJsonString SerdeJson.sample v).toList

/-- A value is read from its text, whatever follows. -/
def ReadsPrinted (v : Value) : Prop :=
  ∀ fuel rest, (printed v).length < fuel → NoDigit rest →
    readValue fuel (printed v ++ rest) = some (v, rest)

/-- A printed integer is read back if it fits one of the source's two integer types. -/
theorem readsPrinted_int {n : Int} (hlow : -2 ^ 63 ≤ n) (hhigh : n < 2 ^ 64) :
    ReadsPrinted (.number (.int n)) := by
  intro fuel rest hfuel hrest
  obtain ⟨fuel, rfl⟩ : ∃ k, fuel = k + 1 := ⟨fuel - 1, by omega⟩
  cases n with
  | ofNat n =>
    have hprint : printed (.number (.int (Int.ofNat n))) = Nat.toDigits 10 n := by
      simp [printed, toJsonString, SerdeJson.sample, toString, Int.repr, Nat.repr]
    rw [hprint, readValue_digits]
    exact readInt_digits hrest false rfl hlow hhigh
  | negSucc n =>
    have hprint : printed (.number (.int (Int.negSucc n))) = '-' :: Nat.toDigits 10 (n + 1) := by
      simp [printed, toJsonString, SerdeJson.sample, toString, Int.repr, Nat.repr]
    have hsign : readValue (fuel + 1) ('-' :: Nat.toDigits 10 (n + 1) ++ rest) =
        readInt true (Nat.toDigits 10 (n + 1) ++ rest) := by simp [readValue]
    rw [hprint, hsign]
    exact readInt_digits hrest true rfl hlow hhigh

/-- A printed string is read back. -/
theorem readsPrinted_string (s : String) : ReadsPrinted (.string s) := by
  intro fuel rest hfuel _
  obtain ⟨fuel, rfl⟩ : ∃ k, fuel = k + 1 := ⟨fuel - 1, by omega⟩
  have hprint : printed (.string s) ++ rest =
      '"' :: (s.toList.flatMap escapeChar ++ '"' :: rest) := by
    simp [printed, toJsonString, SerdeJson.sample]
  rw [hprint]
  simp [readValue, readString_escaped]

/-! ### Arrays -/

/-- What starts with something else does not start with a digit. -/
theorem noDigit_cons {c : Char} (h : c.isDigit = false) (rest : List Char) :
    NoDigit (c :: rest) := by
  intro x hx
  obtain rfl : c = x := Option.some.inj hx
  exact h

/-- The items as they are printed, with commas between them. -/
private def joined (texts : List String) : List Char := (",".intercalate texts).toList

/-- One text, joined. -/
private theorem joined_single (t : String) : joined [t] = t.toList := by simp [joined]

/-- Several texts, joined by commas. -/
private theorem joined_cons (t u : String) (texts : List String) :
    joined (t :: u :: texts) = t.toList ++ ',' :: joined (u :: texts) := by
  simp [joined, String.intercalate_cons_cons]

/-- Items are read one by one, by induction on the list. -/
private theorem readItems_printed : ∀ (v : Value) (items : List Value),
    (∀ w ∈ v :: items, ReadsPrinted w) → ∀ fuel rest,
    (joined (itemStrings SerdeJson.sample (v :: items))).length + 1 < fuel →
    readItems fuel (joined (itemStrings SerdeJson.sample (v :: items)) ++ ']' :: rest) =
      some (v :: items, rest) := by
  intro v items
  induction items generalizing v with
  | nil =>
    intro h fuel rest hfuel
    obtain ⟨fuel, rfl⟩ : ∃ k, fuel = k + 1 := ⟨fuel - 1, by omega⟩
    simp only [itemStrings, joined_single] at hfuel ⊢
    have hv := h v List.mem_cons_self fuel (']' :: rest) (by simp only [printed]; omega)
      (noDigit_cons (by decide) rest)
    simp only [printed] at hv
    simp only [readItems, hv]
  | cons w items ih =>
    intro h fuel rest hfuel
    obtain ⟨fuel, rfl⟩ : ∃ k, fuel = k + 1 := ⟨fuel - 1, by omega⟩
    simp only [itemStrings, joined_cons] at hfuel ih ⊢
    simp only [List.length_append, List.length_cons] at hfuel
    -- The first item, up to the comma, and then the others.
    have hv := h v List.mem_cons_self fuel
      (',' :: (joined (itemStrings SerdeJson.sample (w :: items)) ++ ']' :: rest))
      (by simp only [printed]; omega) (noDigit_cons (by decide) _)
    have hrest := ih w (fun x hx => h x (List.mem_cons_of_mem v hx)) fuel rest (by omega)
    simp only [printed, itemStrings] at hv hrest
    simp only [List.append_assoc, List.cons_append, readItems, hv, hrest, Option.map_some]

/-- No value starts with the bracket that closes an array. -/
private theorem printed_head {v : Value} (h : ReadsPrinted v) (rest : List Char)
    (hrest : NoDigit rest) : (printed v ++ rest).head? ≠ some ']' := by
  intro hhead
  have hread := h ((printed v).length + 1) rest (by omega) hrest
  obtain ⟨tail, htail⟩ : ∃ tail, printed v ++ rest = ']' :: tail := by
    cases hcs : printed v ++ rest with
    | nil => simp [hcs] at hhead
    | cons c tail =>
      rw [hcs] at hhead
      exact ⟨tail, by rw [Option.some.inj hhead]⟩
  rw [htail] at hread
  simp [readValue, readInt] at hread

/-- A list of readable items is readable. -/
theorem readsPrinted_array {items : List Value} (h : ∀ v ∈ items, ReadsPrinted v) :
    ReadsPrinted (.array items) := by
  intro fuel rest hfuel _
  obtain ⟨fuel, rfl⟩ : ∃ k, fuel = k + 1 := ⟨fuel - 1, by omega⟩
  cases items with
  | nil => simp [printed, toJsonString, itemStrings, readValue]
  | cons v items =>
    have hprint : printed (.array (v :: items)) ++ rest =
        '[' :: (joined (itemStrings SerdeJson.sample (v :: items)) ++ ']' :: rest) := by
      simp [printed, toJsonString, joined]
    have hlen : (printed (.array (v :: items))).length =
        (joined (itemStrings SerdeJson.sample (v :: items))).length + 2 := by
      simp [printed, toJsonString, joined]
    have hitems := readItems_printed v items h fuel rest (by omega)
    have hhead : (joined (itemStrings SerdeJson.sample (v :: items)) ++ ']' :: rest).head? ≠
        some ']' := by
      cases items with
      | nil =>
        simp only [itemStrings, joined_single]
        exact printed_head (h v List.mem_cons_self) _ (noDigit_cons (by decide) rest)
      | cons w items =>
        simp only [itemStrings, joined_cons, List.append_assoc, List.cons_append]
        exact printed_head (h v List.mem_cons_self) _ (noDigit_cons (by decide) _)
    rw [hprint, readValue]
    simp only [Char.reduceEq, if_false, if_true, if_neg hhead, hitems, Option.map_some]

/-! ### Objects -/

/-- A member as it is printed. -/
private theorem member_text (k : String) (v : Value) :
    (SerdeJson.sample.strToString k ++ ":" ++ toJsonString SerdeJson.sample v).toList =
      '"' :: (k.toList.flatMap escapeChar ++ '"' :: ':' :: printed v) := by
  simp [SerdeJson.sample, printed]

/-- Members are read one by one, by induction on the list. -/
private theorem readMembers_printed : ∀ (m : String × Value) (members : List (String × Value)),
    (∀ x ∈ m :: members, ReadsPrinted x.2) → ∀ fuel rest,
    (joined (memberStrings SerdeJson.sample (m :: members))).length + 1 < fuel →
    readMembers fuel (joined (memberStrings SerdeJson.sample (m :: members)) ++ '\x7d' :: rest) =
      some (m :: members, rest) := by
  rintro ⟨k, v⟩ members
  induction members generalizing k v with
  | nil =>
    intro h fuel rest hfuel
    -- The member takes less fuel than its text is long, and so does the rest.
    obtain ⟨fuel, rfl⟩ : ∃ k, fuel = k + 1 := ⟨fuel - 1, by omega⟩
    simp only [memberStrings, joined_single, member_text] at hfuel ⊢
    simp only [List.length_cons, List.length_append] at hfuel
    have hv := h (k, v) List.mem_cons_self fuel ('\x7d' :: rest) (by simp only; omega)
      (noDigit_cons (by decide) rest)
    simp only [List.cons_append, List.append_assoc, readMembers, readString_escaped, hv,
      String.ofList_toList]
  | cons n members ih =>
    obtain ⟨k', v'⟩ := n
    intro h fuel rest hfuel
    obtain ⟨fuel, rfl⟩ : ∃ k, fuel = k + 1 := ⟨fuel - 1, by omega⟩
    simp only [memberStrings, joined_cons, member_text] at hfuel ih ⊢
    simp only [List.length_cons, List.length_append] at hfuel
    have hv := h (k, v) List.mem_cons_self fuel
      (',' :: (joined (memberStrings SerdeJson.sample ((k', v') :: members)) ++ '\x7d' :: rest))
      (by simp only; omega) (noDigit_cons (by decide) _)
    have hrest := ih k' v' (fun x hx => h x (List.mem_cons_of_mem _ hx)) fuel rest (by omega)
    simp only [memberStrings] at hv hrest
    simp only [List.cons_append, List.append_assoc, readMembers, readString_escaped, hv, hrest,
      String.ofList_toList, Option.map_some]

/-- An object with readable values is readable. -/
theorem readsPrinted_object {members : List (String × Value)}
    (h : ∀ m ∈ members, ReadsPrinted m.2) : ReadsPrinted (.object members) := by
  intro fuel rest hfuel _
  obtain ⟨fuel, rfl⟩ : ∃ k, fuel = k + 1 := ⟨fuel - 1, by omega⟩
  cases members with
  | nil => simp [printed, toJsonString, memberStrings, readValue]
  | cons m members =>
    have hprint : printed (.object (m :: members)) ++ rest =
        '\x7b' :: (joined (memberStrings SerdeJson.sample (m :: members)) ++ '\x7d' :: rest) := by
      simp [printed, toJsonString, joined]
    have hlen : (printed (.object (m :: members))).length =
        (joined (memberStrings SerdeJson.sample (m :: members))).length + 2 := by
      simp [printed, toJsonString, joined]
    have hmembers := readMembers_printed m members h fuel rest (by omega)
    -- The first member starts with the quote of its key.
    have hhead : (joined (memberStrings SerdeJson.sample (m :: members)) ++ '\x7d' :: rest).head? =
        some '"' := by
      obtain ⟨k, v⟩ := m
      cases members with
      | nil =>
        simp only [memberStrings, joined_single, member_text]
        rfl
      | cons n members =>
        obtain ⟨k', v'⟩ := n
        simp only [memberStrings, joined_cons, member_text]
        rfl
    rw [hprint, readValue, hhead]
    simp [hmembers]

/-! ### Whole documents -/

/-- The reader finds no floats. -/
private theorem readValue_no_float {fuel : ℕ} {cs rest : List Char} {token : String} :
    readValue fuel cs ≠ some (.number (.float token), rest) := by
  cases fuel with
  | zero => simp [readValue]
  | succ fuel =>
    cases cs with
    | nil => simp [readValue]
    | cons c cs =>
      rw [readValue]
      -- The first character decides what is read; only a sign or a digit leads to a number, and
      -- that is an integer.
      by_cases hn : c = 'n'
      · rw [if_pos hn]
        simp [readWord]
      by_cases ht : c = 't'
      · rw [if_neg hn, if_pos ht]
        simp [readWord]
      by_cases hf : c = 'f'
      · rw [if_neg hn, if_neg ht, if_pos hf]
        simp [readWord]
      rw [if_neg hn, if_neg ht, if_neg hf]
      by_cases hquote : c = '"'
      · rw [if_pos hquote]
        simp
      by_cases hlist : c = '['
      · rw [if_neg hquote, if_pos hlist]
        split <;> simp
      rw [if_neg hquote, if_neg hlist]
      by_cases hobject : c = '\x7b'
      · rw [if_pos hobject]
        split <;> simp
      rw [if_neg hobject]
      split <;> simp [readInt]

/-- A document is its text in bytes. -/
theorem readDocument_toVec (v : Value) :
    readDocument (toVec SerdeJson.sample v) = readText (printed v) := by
  have hvalid : (toJsonString SerdeJson.sample v).toByteArray.IsValidUTF8 :=
    (toJsonString SerdeJson.sample v).isValidUTF8
  simp [readDocument, toVec, String.fromUTF8?, String.fromUTF8, hvalid, printed]

/-- With the fuel of its own length a printed value is read back. -/
theorem ReadsPrinted.readText {v : Value} (h : ReadsPrinted v) : readText (printed v) = some v := by
  have hread := h ((printed v).length + 1) [] (by omega) (by simp [NoDigit])
  rw [List.append_nil] at hread
  simp [Json.readText, hread]

/-- Whatever survives the round trip through bytes survives the one through text: there are no
floats in it, and the rest is read back. -/
theorem ReadsBack.readsPrinted {v : Value} (h : ReadsBack SerdeJson.sample readDocument v) :
    ReadsPrinted v := by
  induction h with
  | null =>
    intro fuel rest hfuel _
    obtain ⟨fuel, rfl⟩ : ∃ k, fuel = k + 1 := ⟨fuel - 1, by omega⟩
    simp [printed, toJsonString, readValue, readWord]
  | bool b =>
    intro fuel rest hfuel _
    obtain ⟨fuel, rfl⟩ : ∃ k, fuel = k + 1 := ⟨fuel - 1, by omega⟩
    cases b <;> simp [printed, toJsonString, readValue, readWord]
  | int hlow hhigh => exact readsPrinted_int hlow hhigh
  | @float token h =>
    rw [readDocument_toVec, Json.readText] at h
    split at h
    · rename_i heq
      rw [Option.some.inj h] at heq
      exact absurd heq readValue_no_float
    · cases h
  | string s => exact readsPrinted_string s
  | array _ ih => exact readsPrinted_array ih
  | object _ ih => exact readsPrinted_object ih

/-- The sample printer with this reader is faithful. -/
theorem faithfulJson_sample : FaithfulJson SerdeJson.sample readDocument where
  reads h := by rw [readDocument_toVec, h.readsPrinted.readText]
  plain := by
    intro s hs
    have hesc : s.toList.flatMap escapeChar = s.toList := by
      rw [List.flatMap_congr hs]
      simp
    simp [SerdeJson.sample, hesc]
  int n := rfl

end KrabkaRegistry.Format.Json
