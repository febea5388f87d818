import KrabkaRegistry.Format.JsonSample
import KrabkaRegistry.Library.Delimited
import KrabkaRegistry.Library.Related

/-!
# The Canonical Form Is Faithful

`canonicalize` prints compact JSON with the keys of every object sorted.  The separators of the
printed text can occur in its strings, but every part of the text ends where its first character
says: strings at a quote that is not escaped, numbers and words at a delimiter.

- `canonical_faithful`: two values have one canonical form exactly when they are equal up to the
  order of the members of objects, with numbers compared by their printed tokens.
-/

namespace KrabkaRegistry.Guarantees

open KrabkaRegistry.Format (escapeChar escapeChar_cases hexDigit)
open KrabkaRegistry.Format.Json
open KrabkaRegistry.Library.Delimited
open KrabkaRegistry.Library.Related (map_eq_of_forall₂)

/-! ## How values print -/

/-- The inside of a printed string: a quote or a backslash stands after a backslash only. -/
inductive Escaped : List Char → Prop where
  | nil : Escaped []
  | plain {c : Char} {rest : List Char} (hquote : c ≠ '"') (hbackslash : c ≠ '\\') :
      Escaped rest → Escaped (c :: rest)
  | escape {c : Char} {rest : List Char} : Escaped rest → Escaped ('\\' :: c :: rest)

/-- The characters of printed numbers. -/
def isNumberChar (c : Char) : Bool := c.isDigit || ['-', '+', '.', 'e', 'E'].contains c

/-- What is assumed of the printing of strings and numbers. -/
structure PrintsTokens (J : SerdeJson) : Prop where
  number_ne_nil : ∀ n, (J.numToString n).toList ≠ []
  number_chars : ∀ n, ∀ c ∈ (J.numToString n).toList, isNumberChar c
  string_quoted : ∀ s, ∃ body, (J.strToString s).toList = '"' :: (body ++ ['"']) ∧ Escaped body
  string_injective : Function.Injective J.strToString

/-- Equality of values up to the order of the members of objects.  Numbers are compared by the
token they print as. -/
inductive SameUpToOrder (J : SerdeJson) : Value → Value → Prop where
  | null : SameUpToOrder J .null .null
  | bool (b : Bool) : SameUpToOrder J (.bool b) (.bool b)
  | number {m n : Number} : J.numToString m = J.numToString n →
      SameUpToOrder J (.number m) (.number n)
  | string (s : String) : SameUpToOrder J (.string s) (.string s)
  | array {as bs : List Value} : List.Forall₂ (SameUpToOrder J) as bs →
      SameUpToOrder J (.array as) (.array bs)
  | object {ms mid ns : List (String × Value)} : ms.map Prod.fst = mid.map Prod.fst →
      List.Forall₂ (SameUpToOrder J) (ms.map Prod.snd) (mid.map Prod.snd) → mid.Perm ns →
      SameUpToOrder J (.object ms) (.object ns)

/-! ## Strings and numbers are read one way -/

/-- The symbols that may follow a value. -/
def Delimiter (c : Char) : Prop := c = ',' ∨ c = ']' ∨ c = '}'

/-- A number does not contain what ends a value. -/
theorem not_delimiter {c : Char} (h : isNumberChar c) : ¬ Delimiter c := by
  rintro (rfl | rfl | rfl)
  · exact absurd h (by decide)
  · exact absurd h (by decide)
  · exact absurd h (by decide)

/-- A printed string ends at its first quote that is not escaped. So a text with something behind it
is read as a string in one way. -/
theorem Escaped.append {s t rest rest' : List Char} (hs : Escaped s) (ht : Escaped t)
    (h : s ++ '"' :: rest = t ++ '"' :: rest') : s = t ∧ rest = rest' := by
  induction hs generalizing t with
  | nil =>
    cases ht with
    | nil => simpa using h
    | plain hquote _ _ =>
      simp only [List.nil_append, List.cons_append, List.cons.injEq] at h
      exact absurd h.1.symm hquote
    | escape _ => simp at h
  -- The texts agree character by character, and neither can stop at a quote inside the other.
  | plain hquote hbackslash _ ih =>
    cases ht with
    | nil =>
      simp only [List.nil_append, List.cons_append, List.cons.injEq] at h
      exact absurd h.1 hquote
    | plain _ _ ht =>
      simp only [List.cons_append, List.cons.injEq] at h
      obtain ⟨rfl, h⟩ := h
      obtain ⟨rfl, hsame⟩ := ih ht h
      exact ⟨rfl, hsame⟩
    | escape _ =>
      simp only [List.cons_append, List.cons.injEq] at h
      exact absurd h.1 hbackslash
  | escape _ ih =>
    cases ht with
    | nil => simp at h
    | plain _ hbackslash _ =>
      simp only [List.cons_append, List.cons.injEq] at h
      exact absurd h.1.symm hbackslash
    | escape ht =>
      simp only [List.cons_append, List.cons.injEq, true_and] at h
      obtain ⟨rfl, h⟩ := h
      obtain ⟨rfl, hsame⟩ := ih ht h
      exact ⟨rfl, hsame⟩

section Tokens

variable {J : SerdeJson} (hJ : PrintsTokens J)

include hJ

/-- Two printed strings that start the same text are the same string. -/
theorem PrintsTokens.string_append {s t : String} {rest rest' : List Char}
    (h : (J.strToString s).toList ++ rest = (J.strToString t).toList ++ rest') :
    s = t ∧ rest = rest' := by
  obtain ⟨body, hs, hbody⟩ := hJ.string_quoted s
  obtain ⟨body', ht, hbody'⟩ := hJ.string_quoted t
  rw [hs, ht] at h
  simp only [List.cons_append, List.append_assoc, List.nil_append, List.cons.injEq,
    true_and] at h
  obtain ⟨rfl, hsame⟩ := hbody.append hbody' h
  exact ⟨hJ.string_injective (String.toList_inj.mp (hs.trans ht.symm)), hsame⟩

/-- So a number can be told from what follows it: it ends where the first delimiter stands. -/
theorem PrintsTokens.number_append {m n : Number} {rest rest' : List Char}
    (hrest : Stops Delimiter rest) (hrest' : Stops Delimiter rest')
    (h : (J.numToString m).toList ++ rest = (J.numToString n).toList ++ rest') :
    J.numToString m = J.numToString n ∧ rest = rest' := by
  obtain ⟨htoken, hsame⟩ := token_append (fun c hc => not_delimiter (hJ.number_chars m c hc))
    (fun c hc => not_delimiter (hJ.number_chars n c hc)) hrest hrest' h
  exact ⟨String.toList_inj.mp htoken, hsame⟩

end Tokens

/-! ## The canonical form as a text -/

section Texts

variable (J : SerdeJson)

def canonicalText (v : Value) : List Char := (canonicalize J v).toList

/-- A member as it is printed inside an object. -/
def memberText (m : String × Value) : List Char :=
  (J.strToString m.1).toList ++ ':' :: canonicalText J m.2

/-- The members of an object in the order of their keys. -/
def byKey (members : List (String × Value)) : List (String × Value) :=
  members.insertionSort fun a b => a.1 ≤ b.1

/-- The walk over a list, as a map. -/
theorem canonicalItems_eq (items : List Value) :
    canonicalItems J items = items.map (canonicalize J) := by
  induction items with
  | nil => rfl
  | cons v items ih => rw [canonicalItems, ih, List.map_cons]

/-- The walk over the members, as a map that keeps the keys. -/
theorem canonicalMembers_eq (members : List (String × Value)) :
    canonicalMembers J members = members.map fun m => (m.1, canonicalize J m.2) := by
  induction members with
  | nil => rfl
  | cons m members ih => rw [canonicalMembers, ih, List.map_cons]

/-- Joined texts, as characters. -/
private theorem intercalate_toList (texts : List String) :
    (",".intercalate texts).toList = delimited ',' (texts.map String.toList) := by
  induction texts with
  | nil => simp [delimited]
  | cons t texts ih =>
    cases texts with
    | nil => simp [delimited, separated]
    | cons u texts =>
      rw [String.intercalate_cons_cons]
      simp only [String.toList_append, ih, List.map_cons, delimited, separated]
      simp

/-- The text of each kind of value; the cases below read them from the front. -/
theorem canonicalText_null : canonicalText J .null = ['n', 'u', 'l', 'l'] := by
  simp [canonicalText, canonicalize, toJsonString]

/-- A boolean is one of two words. -/
theorem canonicalText_bool (b : Bool) :
    canonicalText J (.bool b) =
      if b then ['t', 'r', 'u', 'e'] else ['f', 'a', 'l', 's', 'e'] := by
  cases b <;> simp [canonicalText, canonicalize, toJsonString]

/-- A number is its token. -/
theorem canonicalText_number (n : Number) :
    canonicalText J (.number n) = (J.numToString n).toList := by
  simp [canonicalText, canonicalize, toJsonString]

/-- A string is its quoted text. -/
theorem canonicalText_string (s : String) :
    canonicalText J (.string s) = (J.strToString s).toList := by
  simp [canonicalText, canonicalize, toJsonString]

/-- A list is its items between brackets. -/
theorem canonicalText_array (items : List Value) :
    canonicalText J (.array items) =
      '[' :: (delimited ',' (items.map (canonicalText J)) ++ [']']) := by
  have htexts : (items.map (canonicalize J)).map String.toList = items.map (canonicalText J) := by
    simp [canonicalText]
  rw [canonicalText, canonicalize, canonicalItems_eq]
  simp only [String.toList_append, intercalate_toList, htexts]
  simp

/-- An object is its members in the order of their keys, between braces. -/
theorem canonicalText_object (members : List (String × Value)) :
    canonicalText J (.object members) =
      '\x7b' :: (delimited ',' ((byKey members).map (memberText J)) ++ ['\x7d']) := by
  -- Sorting by key commutes with printing the values.
  have hsorted : (canonicalMembers J members).insertionSort (fun a b => a.1 ≤ b.1) =
      (byKey members).map fun m => (m.1, canonicalize J m.2) := by
    rw [canonicalMembers_eq, byKey]
    symm
    apply List.map_insertionSort
    simp
  have htexts : (((byKey members).map fun m => (m.1, canonicalize J m.2)).map fun m =>
      J.strToString m.1 ++ ":" ++ m.2).map String.toList = (byKey members).map (memberText J) := by
    simp [memberText, canonicalText]
  rw [canonicalText, canonicalize]
  simp only [String.toList_append, hsorted, intercalate_toList, htexts]
  simp

end Texts

/-! ## Values are read one way -/

/-- The kinds of values, as the first character of a text tells them. -/
inductive Kind where
  | null | bool | number | string | array | object
  deriving DecidableEq

def kindOf : Value → Kind
  | .null => .null
  | .bool _ => .bool
  | .number _ => .number
  | .string _ => .string
  | .array _ => .array
  | .object _ => .object

def kindAt (c : Char) : Kind :=
  if c = 'n' then .null
  else if c = 't' ∨ c = 'f' then .bool
  else if c = '"' then .string
  else if c = '[' then .array
  else if c = '\x7b' then .object
  else .number

/-- A character of a number starts nothing else. -/
theorem kindAt_number {c : Char} (h : isNumberChar c) : kindAt c = .number := by
  have hne : ∀ x : Char, isNumberChar x = false → c ≠ x := by
    rintro x hx rfl
    rw [hx] at h
    cases h
  simp [kindAt, hne 'n' (by decide), hne 't' (by decide), hne 'f' (by decide),
    hne '"' (by decide), hne '[' (by decide), hne '\x7b' (by decide)]

section Reading

variable {J : SerdeJson} (hJ : PrintsTokens J)

include hJ

/-- A text starts as its value's kind does, and not with a delimiter. -/
theorem canonicalText_start (v : Value) :
    ∃ c rest, canonicalText J v = c :: rest ∧ kindAt c = kindOf v ∧ ¬ Delimiter c := by
  cases v with
  | null => exact ⟨'n', _, canonicalText_null J, rfl, by simp [Delimiter]⟩
  | bool b =>
    cases b with
    | false => exact ⟨'f', _, canonicalText_bool J false, rfl, by simp [Delimiter]⟩
    | true => exact ⟨'t', _, canonicalText_bool J true, rfl, by simp [Delimiter]⟩
  | number n =>
    obtain ⟨c, rest, htext⟩ := List.exists_cons_of_ne_nil (hJ.number_ne_nil n)
    have hc : isNumberChar c := hJ.number_chars n c (by rw [htext]; exact List.mem_cons_self)
    exact ⟨c, rest, (canonicalText_number J n).trans htext, kindAt_number hc, not_delimiter hc⟩
  | string s =>
    obtain ⟨body, htext, -⟩ := hJ.string_quoted s
    exact ⟨'"', _, (canonicalText_string J s).trans htext, rfl, by simp [Delimiter]⟩
  | array items => exact ⟨'[', _, canonicalText_array J items, rfl, by simp [Delimiter]⟩
  | object members =>
    exact ⟨'\x7b', _, canonicalText_object J members, rfl, by simp [Delimiter]⟩

/-- Texts that start alike are of values of one kind. -/
theorem kind_eq {a b : Value} {rest rest' : List Char}
    (h : canonicalText J a ++ rest = canonicalText J b ++ rest') : kindOf a = kindOf b := by
  obtain ⟨c, tail, ha, hac, -⟩ := canonicalText_start hJ a
  obtain ⟨d, tail', hb, hbd, -⟩ := canonicalText_start hJ b
  rw [ha, hb] at h
  simp only [List.cons_append, List.cons.injEq] at h
  rw [← hac, ← hbd, h.1]

/-- A member is read one way when its value is. -/
theorem memberText_reads {m : String × Value}
    (h : Reads Delimiter (canonicalText J) (SameUpToOrder J) m.2) :
    Reads Delimiter (memberText J) (fun m n => m.1 = n.1 ∧ SameUpToOrder J m.2 n.2) m := by
  intro n rest rest' hrest hrest' htext
  simp only [memberText, List.append_assoc, List.cons_append] at htext
  obtain ⟨hkey, htext⟩ := hJ.string_append htext
  simp only [List.cons.injEq, true_and] at htext
  obtain ⟨hvalue, hsame⟩ := h n.2 rest rest' hrest hrest' htext
  exact ⟨⟨hkey, hvalue⟩, hsame⟩

/-- A member starts with a quote, which is no delimiter. -/
theorem memberText_start (m : String × Value) :
    ∃ c rest, memberText J m = c :: rest ∧ ¬ Delimiter c := by
  obtain ⟨body, htext, -⟩ := hJ.string_quoted m.1
  exact ⟨'"', _, by rw [memberText, htext]; rfl, by simp [Delimiter]⟩

end Reading

/-! ## Members -/

/-- Members correspond when their keys and their values do. -/
theorem forall₂_members {R : Value → Value → Prop} {ms ns : List (String × Value)} :
    List.Forall₂ (fun m n => m.1 = n.1 ∧ R m.2 n.2) ms ns ↔
      ms.map Prod.fst = ns.map Prod.fst ∧
        List.Forall₂ R (ms.map Prod.snd) (ns.map Prod.snd) := by
  induction ms generalizing ns with
  | nil => cases ns <;> simp
  | cons m ms ih =>
    cases ns with
    | nil => simp
    | cons n ns =>
      simp only [List.forall₂_cons, ih, List.map_cons, List.cons.injEq]
      tauto

/-- Members that correspond in key order correspond in some order of one side. -/
theorem sameUpToOrder_of_byKey {J : SerdeJson} {ms ns : List (String × Value)}
    (h : List.Forall₂ (fun m n => m.1 = n.1 ∧ SameUpToOrder J m.2 n.2) (byKey ms) (byKey ns)) :
    SameUpToOrder J (.object ms) (.object ns) := by
  have hms : (byKey ms).Perm ms := List.perm_insertionSort _ ms
  have hns : (byKey ns).Perm ns := List.perm_insertionSort _ ns
  obtain ⟨mid, hmid, hperm⟩ := List.perm_comp_forall₂ hms.symm h
  obtain ⟨hkeys, hvalues⟩ := forall₂_members.mp hmid
  exact .object hkeys hvalues (hperm.trans hns)

/-! ## Both directions -/

/-- The canonical text of a value is read one way. By induction on the value: its text starts as no
text of another kind does, and what follows is read in parallel. -/
theorem canonicalText_reads {J : SerdeJson} (hJ : PrintsTokens J) :
    ∀ a : Value, Reads Delimiter (canonicalText J) (SameUpToOrder J) a
  | .null, b, rest, rest', _, _, h => by
    have hkind := kind_eq hJ h
    cases b with
    | null => exact ⟨.null, List.append_cancel_left h⟩
    | _ => cases hkind
  | .bool x, b, rest, rest', _, _, h => by
    have hkind := kind_eq hJ h
    cases b with
    | bool y =>
      rw [canonicalText_bool, canonicalText_bool] at h
      cases x <;> cases y <;> simp at h
      all_goals exact ⟨.bool _, h⟩
    | _ => cases hkind
  | .number m, b, rest, rest', hrest, hrest', h => by
    have hkind := kind_eq hJ h
    cases b with
    | number n =>
      rw [canonicalText_number, canonicalText_number] at h
      obtain ⟨htoken, hsame⟩ := hJ.number_append hrest hrest' h
      exact ⟨.number htoken, hsame⟩
    | _ => cases hkind
  | .string s, b, rest, rest', _, _, h => by
    have hkind := kind_eq hJ h
    cases b with
    | string t =>
      rw [canonicalText_string, canonicalText_string] at h
      obtain ⟨rfl, hsame⟩ := hJ.string_append h
      exact ⟨.string s, hsame⟩
    | _ => cases hkind
  -- An item stops at a comma or at the closing bracket, so the lists are read in parallel.
  | .array as, b, rest, rest', _, _, h => by
    have hkind := kind_eq hJ h
    cases b with
    | array bs =>
      have hreads : ∀ a ∈ as, Reads Delimiter (canonicalText J) (SameUpToOrder J) a :=
        fun a ha => canonicalText_reads hJ a
      have hstart : ∀ a, ∃ c tail, canonicalText J a = c :: tail ∧ ¬ Delimiter c := by
        intro a
        obtain ⟨c, tail, ha, -, hc⟩ := canonicalText_start hJ a
        exact ⟨c, tail, ha, hc⟩
      rw [canonicalText_array, canonicalText_array] at h
      simp only [List.cons_append, List.append_assoc, List.nil_append, List.cons.injEq,
        true_and] at h
      obtain ⟨hall, hsame⟩ := delimited_reads (.inl rfl) (.inr (.inl rfl)) (by decide) hstart hreads h
      exact ⟨.array hall, hsame⟩
    | _ => cases hkind
  -- Members are printed by key, so it is the sorted members that agree one by one.
  | .object ms, b, rest, rest', _, _, h => by
    have hkind := kind_eq hJ h
    cases b with
    | object ns =>
      have hreads : ∀ m ∈ byKey ms, Reads Delimiter (memberText J)
          (fun m n => m.1 = n.1 ∧ SameUpToOrder J m.2 n.2) m := fun m hm =>
        have hmem : m ∈ ms := (List.mem_insertionSort _).mp hm
        memberText_reads hJ (canonicalText_reads hJ m.2)
      rw [canonicalText_object, canonicalText_object] at h
      simp only [List.cons_append, List.append_assoc, List.nil_append, List.cons.injEq,
        true_and] at h
      obtain ⟨hall, hsame⟩ := delimited_reads (.inl rfl) (.inr (.inr rfl)) (by decide)
        (memberText_start hJ) hreads h
      exact ⟨sameUpToOrder_of_byKey hall, hsame⟩
    | _ => cases hkind
termination_by a => sizeOf a
decreasing_by
  · exact Value.sizeOf_item ha
  · exact Value.sizeOf_member hmem

/-- Texts with distinct keys are sorted one way. -/
theorem sorted_eq {l l' : List (String × String)} (hkeys : (l.map Prod.fst).Nodup)
    (h : l.Perm l') :
    l.insertionSort (fun a b => a.1 ≤ b.1) = l'.insertionSort fun a b => a.1 ≤ b.1 := by
  have htotal : Std.Total fun a b : String × String => a.1 ≤ b.1 := ⟨fun a b => le_total a.1 b.1⟩
  have htrans : IsTrans (String × String) fun a b => a.1 ≤ b.1 := ⟨fun _ _ _ => le_trans⟩
  have hl := List.perm_insertionSort (fun a b : String × String => a.1 ≤ b.1) l
  have hl' := List.perm_insertionSort (fun a b : String × String => a.1 ≤ b.1) l'
  refine List.Perm.eq_of_pairwise ?_ (List.pairwise_insertionSort _ l)
    (List.pairwise_insertionSort _ l') (hl.trans (h.trans hl'.symm))
  intro a b ha hb hab hba
  have ha' : a ∈ l := hl.mem_iff.mp ha
  have hb' : b ∈ l := h.mem_iff.mpr (hl'.mem_iff.mp hb)
  exact List.inj_on_of_nodup_map hkeys ha' hb' (le_antisymm hab hba)

/-- Values that are equal up to order have one canonical form. -/
theorem canonicalize_of_same {J : SerdeJson} :
    ∀ {a b : Value}, a.Distinct → SameUpToOrder J a b → canonicalize J a = canonicalize J b
  | _, _, _, .null => rfl
  | _, _, _, .bool _ => rfl
  | _, _, _, .string _ => rfl
  | _, _, _, .number h => by
    rw [canonicalize, canonicalize, toJsonString, toJsonString, h]
    all_goals simp
  | .array as, _, hd, .array h => by
    have hitems := map_eq_of_forall₂ h fun a ha b hab =>
      canonicalize_of_same (hd.sub (.item ha .refl)) hab
    rw [canonicalize, canonicalize, canonicalItems_eq, canonicalItems_eq, hitems]
  | .object ms, .object ns, hd, @SameUpToOrder.object _ _ mid _ hkeys hvalues hperm => by
    have htexts := map_eq_of_forall₂ hvalues fun v hv b hvb => by
      obtain ⟨m, hm, rfl⟩ := List.mem_map.mp hv
      exact canonicalize_of_same (hd.sub (.member hm .refl)) hvb
    -- First the values are exchanged under the same keys, then the members change places.
    have hmid : canonicalMembers J ms = canonicalMembers J mid := by
      rw [← List.zip_unzip (canonicalMembers J ms), ← List.zip_unzip (canonicalMembers J mid)]
      simp only [List.unzip_eq_map, canonicalMembers_eq, List.map_map] at htexts ⊢
      exact congrArg₂ List.zip hkeys htexts
    have hsorted : (canonicalMembers J ms).Perm (canonicalMembers J ns) := by
      rw [hmid, canonicalMembers_eq, canonicalMembers_eq]
      exact hperm.map _
    -- With distinct keys, sorting forgets the order.
    have hnodup : ((canonicalMembers J ms).map Prod.fst).Nodup := by
      rw [canonicalMembers_eq, List.map_map]
      exact hd ms .refl
    rw [canonicalize, canonicalize]
    simp only [sorted_eq hnodup hsorted]
termination_by a => sizeOf a
decreasing_by
  · exact Value.sizeOf_item ha
  · exact Value.sizeOf_member hm

/-- Values of one canonical form are equal up to order. -/
theorem same_of_canonicalize {J : SerdeJson} (hJ : PrintsTokens J) {a b : Value}
    (h : canonicalize J a = canonicalize J b) : SameUpToOrder J a b := by
  have htext : canonicalText J a ++ [] = canonicalText J b ++ [] := by
    rw [canonicalText, canonicalText, h]
  exact (canonicalText_reads hJ a b [] [] stops_nil stops_nil htext).1

/-- Two values have one canonical form exactly when they are equal up to the order of the members
of objects.  The keys of the second value are then as distinct as those of the first. -/
theorem canonical_faithful {J : SerdeJson} (hJ : PrintsTokens J) {a b : Value}
    (ha : a.Distinct) : canonicalize J a = canonicalize J b ↔ SameUpToOrder J a b := by
  constructor
  · exact same_of_canonicalize hJ
  · exact canonicalize_of_same ha

/-! ## A printer -/

/-- A token with the characters of numbers only, or zero. -/
def numberToken (token : String) : List Char :=
  if token.toList.filter isNumberChar = [] then ['0'] else token.toList.filter isNumberChar

/-- A token has at least one character. -/
theorem numberToken_ne_nil (token : String) : numberToken token ≠ [] := by
  unfold numberToken
  split_ifs with h
  · simp
  · exact h

/-- A token consists of characters of a number. -/
theorem numberToken_chars (token : String) : ∀ c ∈ numberToken token, isNumberChar c := by
  intro c hc
  unfold numberToken at hc
  split_ifs at hc with h
  · obtain rfl := List.mem_singleton.mp hc
    decide
  · exact (List.mem_filter.mp hc).2

/-- A hexadecimal digit is neither a quote nor a backslash. -/
private theorem hexDigit_plain {n : ℕ} (h : n < 16) : hexDigit n ≠ '"' ∧ hexDigit n ≠ '\\' := by
  have hall : ∀ k : Fin 16, hexDigit k ≠ '"' ∧ hexDigit k ≠ '\\' := by decide
  exact hall ⟨n, h⟩

/-- Escaping leaves no bare quote and no bare backslash. -/
theorem escaped_flatMap (s : List Char) : Escaped (s.flatMap escapeChar) := by
  induction s with
  | nil => exact .nil
  | cons c s ih =>
    rw [List.flatMap_cons]
    apply escapeChar_cases (P := fun _ cs => Escaped (cs ++ s.flatMap escapeChar))
    case control =>
      intro c h
      obtain ⟨hhigh, hhigh'⟩ := hexDigit_plain (n := c.toNat / 16) (by omega)
      obtain ⟨hlow, hlow'⟩ := hexDigit_plain (n := c.toNat % 16) (by omega)
      exact .escape (.plain (by decide) (by decide) (.plain (by decide) (by decide)
        (.plain hhigh hhigh' (.plain hlow hlow' ih))))
    case plain =>
      intro c hquote hbackslash _
      exact .plain hquote hbackslash ih
    all_goals exact .escape ih

/-- An integer is made of a sign and digits. -/
theorem isNumberChar_int (n : Int) : ∀ c ∈ (toString n).toList, isNumberChar c := by
  intro c hc
  rcases toString_int_chars n hc with h | rfl
  · simp [isNumberChar, h]
  · decide

/-- An integer has at least one digit. -/
theorem toString_int_ne_nil (n : Int) : (toString n).toList ≠ [] := by
  cases n with
  | ofNat n =>
    have hprint : (toString (Int.ofNat n)).toList = Nat.toDigits 10 n := by
      simp [toString, Int.repr, Nat.repr]
    rw [hprint]
    exact Nat.toDigits_ne_nil
  | negSucc n => simp [toString, Int.repr]

/-- `serde_json` with the printing of numbers as tokens. -/
def serdeTokens : SerdeJson :=
  { SerdeJson.sample with
    numToString
      | .int n => toString n
      | .float token => String.ofList (numberToken token)
    numToString_no_nul := by
      intro n h
      cases n with
      | int n => exact absurd (isNumberChar_int n _ h) (by decide)
      | float token =>
        rw [String.toList_ofList] at h
        exact absurd (numberToken_chars token _ h) (by decide) }

/-- A printer that keeps the source's tokens meets the conditions on texts. -/
theorem printsTokens_serdeTokens : PrintsTokens serdeTokens where
  number_ne_nil n := by
    cases n with
    | int n => exact toString_int_ne_nil n
    | float token =>
      rw [serdeTokens, String.toList_ofList]
      exact numberToken_ne_nil token
  number_chars n := by
    cases n with
    | int n => exact isNumberChar_int n
    | float token =>
      rw [serdeTokens, String.toList_ofList]
      exact numberToken_chars token
  string_quoted s := by
    refine ⟨s.toList.flatMap escapeChar, ?_, escaped_flatMap s.toList⟩
    simp [serdeTokens, SerdeJson.sample]
  string_injective := by
    intro s t h
    have hbody : s.toList.flatMap escapeChar ++ '"' :: [] = t.toList.flatMap escapeChar ++ '"' :: [] := by
      simpa [serdeTokens, SerdeJson.sample] using congrArg String.toList h
    have hread := readString_escaped s.toList []
    rw [hbody, readString_escaped] at hread
    simp only [Option.some.injEq, Prod.mk.injEq, and_true] at hread
    exact String.toList_inj.mp hread.symm

/-- Members in another order, at two levels. -/
def orderedValue : Value :=
  .object [("a", .number (.float "1.5")), ("b", .object [("x", .null), ("y", .bool true)])]

def reorderedValue : Value :=
  .object [("b", .object [("y", .bool true), ("x", .null)]), ("a", .number (.float "1.5"))]

/-- Two documents that differ in the order of their members have one canonical form. -/
theorem canonical_reordered :
    canonicalize serdeTokens orderedValue = canonicalize serdeTokens reorderedValue := by
  have hscalar : ∀ v : Value, v.isArray = false → v.isObject = false → v.Distinct := by
    intro v harray hobject members hsub
    cases hsub with
    | refl => cases hobject
    | item hmem hin => cases harray
    | member hmem hin => cases hobject
  have hdistinct : orderedValue.Distinct := by
    refine .object (by decide) (List.forall_mem_cons.mpr ⟨hscalar _ rfl rfl, ?_⟩)
    refine List.forall_mem_cons.mpr ⟨.object (by decide) ?_, by simp⟩
    exact List.forall_mem_cons.mpr
      ⟨hscalar _ rfl rfl, List.forall_mem_cons.mpr ⟨hscalar _ rfl rfl, by simp⟩⟩
  apply (canonical_faithful printsTokens_serdeTokens hdistinct).mpr
  have hinner : SameUpToOrder serdeTokens (.object [("x", .null), ("y", .bool true)])
      (.object [("y", .bool true), ("x", .null)]) :=
    .object rfl (.cons .null (.cons (.bool true) .nil)) (.swap _ _ _)
  have hswap : [("a", .number (.float "1.5")), ("b", .object [("y", .bool true), ("x", .null)])].Perm
      [("b", Value.object [("y", .bool true), ("x", .null)]), ("a", .number (.float "1.5"))] :=
    .swap _ _ _
  refine .object ?_ ?_ hswap
  · rfl
  · exact .cons (.number rfl) (.cons hinner .nil)

end KrabkaRegistry.Guarantees
