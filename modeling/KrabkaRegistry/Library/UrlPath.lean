import Mathlib.Algebra.Order.Group.Nat
import Mathlib.Data.Fintype.Basic
import Mathlib.Data.List.SplitBy
import KrabkaRegistry.Library.PercentCoding

/-!
# Paths of URLs

How a URL parser reads the path of an `http` URL.  `/` and `\` both end a segment, a segment `..`
takes back the one before it, a segment `.` is dropped, and some characters are
percent-encoded.  The result is the path that is requested.

- `percentDecode_encode`: encoding changes nothing that decoding sees.
- `segments_parsePath`: without dot segments and backslashes, the segments of the result are the
  encoded segments of the path.
- `parsePath_up`: a segment and `..` in front of a path change nothing.
-/

namespace KrabkaRegistry.Library.UrlPath

open KrabkaRegistry.Library.PercentCoding

/-! ## Encoding -/

/-- A percent-encode set: neither `%` nor letters and digits are ever in one. -/
structure EncodeSet where
  mem : Char → Bool
  percent : mem '%' = false
  alphanum : ∀ c : Char, c.isAlphanum = true → mem c = false

/-- A digit below sixteen, in upper case. -/
def hexDigit (n : ℕ) : Char := if n < 10 then Char.ofNat (48 + n) else Char.ofNat (55 + n)

def encodeByte (b : UInt8) : List Char := ['%', hexDigit (b.toNat / 16), hexDigit (b.toNat % 16)]

/-- A character as the parser writes it. -/
def EncodeSet.encodeChar (S : EncodeSet) (c : Char) : List Char :=
  if S.mem c then (String.utf8EncodeChar c).flatMap encodeByte else [c]

def EncodeSet.encode (S : EncodeSet) (s : List Char) : List Char := s.flatMap S.encodeChar

theorem hexDigitValue_hexDigit {n : ℕ} (h : n < 16) : hexDigitValue (hexDigit n) = some n.toUInt8 := by
  have hall : ∀ n : Fin 16, hexDigitValue (hexDigit n) = some n.val.toUInt8 := by decide
  exact hall ⟨n, h⟩

theorem escapedByte_encodeByte (b : UInt8) :
    escapedByte (hexDigit (b.toNat / 16)) (hexDigit (b.toNat % 16)) = some b := by
  have hb : b.toNat < 256 := b.toNat_lt
  rw [escapedByte, hexDigitValue_hexDigit (by omega), hexDigitValue_hexDigit (by omega)]
  simp only [Option.bind_eq_bind, Option.bind_some, Option.pure_def, Option.some.injEq]
  apply UInt8.toNat_inj.mp
  simp
  omega

theorem percentDecode_encodeByte (b : UInt8) (rest : List Char) :
    percentDecode (encodeByte b ++ rest) = b :: percentDecode rest := by
  rw [encodeByte]
  simp only [List.cons_append, List.nil_append]
  rw [percentDecode, escapedByte_encodeByte]

theorem percentDecode_flatMap_encodeByte (bytes : List UInt8) (rest : List Char) :
    percentDecode (bytes.flatMap encodeByte ++ rest) = bytes ++ percentDecode rest := by
  induction bytes with
  | nil => rfl
  | cons b bytes ih => rw [List.flatMap_cons, List.append_assoc, percentDecode_encodeByte, ih,
      List.cons_append]

/-- A character that begins no escape stands for itself. -/
theorem percentDecode_cons {c : Char} {rest : List Char}
    (h : ∀ high low tail, c = '%' → rest = high :: low :: tail → escapedByte high low = none) :
    percentDecode (c :: rest) = String.utf8EncodeChar c ++ percentDecode rest := by
  rw [percentDecode.eq_def]
  split
  · rename_i high low tail heq
    cases heq
    rw [h high low tail rfl rfl]
  · rename_i heq
    cases heq
    rfl
  · rename_i heq
    cases heq

theorem isAlphanum_iff {c : Char} :
    c.isAlphanum = true ↔
      ((65 ≤ c.val ∧ c.val ≤ 90) ∨ (97 ≤ c.val ∧ c.val ≤ 122)) ∨ (48 ≤ c.val ∧ c.val ≤ 57) := by
  change ((decide (c.val ≥ 65 ∧ c.val ≤ 90) ||
    (decide (c.val ≥ 97) && decide (c.val ≤ 122))) ||
    (decide (c.val ≥ 48) && decide (c.val ≤ 57))) = true ↔ _
  simp only [Bool.or_eq_true, Bool.and_eq_true, decide_eq_true_eq, ge_iff_le]

theorem isAlphanum_of_hexDigitValue {c : Char} {n : UInt8} (h : hexDigitValue c = some n) :
    c.isAlphanum = true := by
  unfold hexDigitValue at h
  rw [isAlphanum_iff]
  split_ifs at h with hdigit hlower hupper
  · exact .inr ⟨hdigit.1, hdigit.2⟩
  · exact .inl (.inr ⟨hlower.1, hlower.2.trans (by decide : 'f' ≤ 'z')⟩)
  · exact .inl (.inl ⟨hupper.1, hupper.2.trans (by decide : 'F' ≤ 'Z')⟩)

theorem isAlphanum_of_escapedByte {high low : Char} {b : UInt8}
    (h : escapedByte high low = some b) :
    high.isAlphanum = true ∧ low.isAlphanum = true := by
  obtain ⟨m, hm, h⟩ := Option.bind_eq_some_iff.mp h
  obtain ⟨n, hn, _⟩ := Option.bind_eq_some_iff.mp h
  exact ⟨isAlphanum_of_hexDigitValue hm, isAlphanum_of_hexDigitValue hn⟩

namespace EncodeSet

variable (S : EncodeSet)

@[simp] theorem encode_nil : S.encode [] = [] := rfl

@[simp] theorem encode_cons (c : Char) (s : List Char) :
    S.encode (c :: s) = S.encodeChar c ++ S.encode s := rfl

theorem encodeChar_alphanum {c : Char} (h : c.isAlphanum = true) : S.encodeChar c = [c] := by
  rw [encodeChar, S.alphanum c h]
  rfl

theorem encodeChar_percent : S.encodeChar '%' = ['%'] := by
  rw [encodeChar, S.percent]
  rfl

/-- An encoded character begins with itself or with `%`. -/
theorem encodeChar_head (c : Char) :
    (S.mem c = false ∧ S.encodeChar c = [c]) ∨ ∃ rest, S.encodeChar c = '%' :: rest := by
  unfold encodeChar
  cases hmem : S.mem c with
  | false => exact .inl ⟨rfl, rfl⟩
  | true =>
    refine .inr ?_
    obtain ⟨b, bytes, hbytes⟩ : ∃ b bytes, String.utf8EncodeChar c = b :: bytes := by
      cases hc : String.utf8EncodeChar c with
      | nil =>
        have hpos := c.utf8Size_pos
        rw [← String.length_utf8EncodeChar, hc] at hpos
        exact absurd hpos (Nat.lt_irrefl 0)
      | cons b bytes => exact ⟨b, bytes, rfl⟩
    rw [if_pos rfl, hbytes]
    exact ⟨_, rfl⟩

/-- Encoding is invisible to decoding. -/
theorem percentDecode_encodeChar (c : Char) (rest : List Char)
    (h : ∀ high low tail, c = '%' → rest = high :: low :: tail → escapedByte high low = none) :
    percentDecode (S.encodeChar c ++ rest) = String.utf8EncodeChar c ++ percentDecode rest := by
  unfold encodeChar
  cases hmem : S.mem c with
  | true =>
    rw [if_pos rfl]
    exact percentDecode_flatMap_encodeByte _ _
  | false =>
    rw [if_neg Bool.false_ne_true]
    exact percentDecode_cons h

/-- The first two characters of an encoded text are those of the text, or one of them is `%`. -/
theorem escapedByte_encode {s : List Char} {high low : Char} {tail : List Char}
    (h : S.encode s = high :: low :: tail)
    (hs : ∀ a b rest, s = a :: b :: rest → escapedByte a b = none) :
    escapedByte high low = none := by
  by_contra hsome
  obtain ⟨b, hb⟩ := Option.ne_none_iff_exists'.mp hsome
  obtain ⟨hhigh, hlow⟩ := isAlphanum_of_escapedByte hb
  -- A letter or a digit at the front of an encoded text is the character that was there.
  have hfront : ∀ (c x : Char) (s rest : List Char), x.isAlphanum = true →
      S.encodeChar c ++ S.encode s = x :: rest → c = x ∧ S.encode s = rest := by
    intro c x s rest hx heq
    obtain ⟨_, hc⟩ | ⟨more, hc⟩ := S.encodeChar_head c
    · rw [hc] at heq
      exact List.cons.inj heq
    · rw [hc] at heq
      obtain ⟨rfl, _⟩ := List.cons.inj heq
      exact absurd hx (by decide)
  cases s with
  | nil => cases h
  | cons a s =>
    obtain ⟨rfl, hrest⟩ := hfront a high s _ hhigh h
    cases s with
    | nil => cases hrest
    | cons b' s =>
      obtain ⟨rfl, _⟩ := hfront b' low s _ hlow hrest
      rw [hs a b' s rfl] at hb
      cases hb

theorem percentDecode_encode (s : List Char) : percentDecode (S.encode s) = percentDecode s := by
  fun_induction percentDecode s with
  | case1 high low rest b hb ih =>
    obtain ⟨hhigh, hlow⟩ := isAlphanum_of_escapedByte hb
    rw [encode_cons, encode_cons, encode_cons, encodeChar_percent, S.encodeChar_alphanum hhigh,
      S.encodeChar_alphanum hlow]
    simp only [List.cons_append, List.nil_append]
    rw [percentDecode, hb, ih]
  | case2 high low rest hb ih =>
    rw [encode_cons, encodeChar_percent, ← ih]
    refine percentDecode_cons fun a b tail _ h => ?_
    refine S.escapedByte_encode h fun x y rest' heq => ?_
    cases heq
    exact hb
  | case3 c rest hne ih =>
    rw [encode_cons, ← ih]
    refine S.percentDecode_encodeChar c _ fun a b tail hc h => ?_
    exact S.escapedByte_encode h fun x y rest' heq => (hne x y rest' hc heq).elim
  | case4 => rfl

/-- A text without `%` is the encoding of itself alone. -/
theorem encode_eq_iff {s text : List Char} (htext : ∀ c ∈ text, c.isAlphanum = true) :
    S.encode s = text ↔ s = text := by
  constructor
  · intro h
    induction s generalizing text with
    | nil => exact h
    | cons c s ih =>
      obtain ⟨_, hc⟩ | ⟨more, hc⟩ := S.encodeChar_head c
      · rw [encode_cons, hc] at h
        subst h
        exact congrArg (c :: ·) (ih (fun x hx => htext x (List.mem_cons_of_mem c hx)) rfl)
      · rw [encode_cons, hc] at h
        subst h
        exact absurd (htext '%' List.mem_cons_self) (by decide)
  · rintro rfl
    induction s with
    | nil => rfl
    | cons c s ih =>
      rw [encode_cons, S.encodeChar_alphanum (htext c List.mem_cons_self),
        ih fun x hx => htext x (List.mem_cons_of_mem c hx)]
      rfl

end EncodeSet

/-- The characters that are encoded in the path of a URL: controls, blanks, what is not ASCII,
and some delimiters, all by their numbers. -/
def EncodeSet.path : EncodeSet where
  mem c := c.toNat ≤ 32 || 126 < c.toNat || c.toNat ∈ [34, 35, 60, 62, 63, 96, 123, 125]
  percent := by decide
  alphanum c h := by
    simp only [isAlphanum_iff, UInt32.le_iff_toNat_le] at h
    change ((65 ≤ c.toNat ∧ c.toNat ≤ 90) ∨ (97 ≤ c.toNat ∧ c.toNat ≤ 122)) ∨
      (48 ≤ c.toNat ∧ c.toNat ≤ 57) at h
    simp only [List.mem_cons, List.not_mem_nil, or_false, Bool.or_eq_false_iff,
      decide_eq_false_iff_not]
    omega

/-! ## Segments -/

/-- What ends a segment. -/
def isSeparator (c : Char) : Bool := c = '/' || c = '\\'

/-- The spellings of a segment `.`. -/
def isSingleDot (s : List Char) : Bool := s.map Char.toLower ∈ [".".toList, "%2e".toList]

/-- The spellings of a segment `..`. -/
def isDoubleDot (s : List Char) : Bool :=
  s.map Char.toLower ∈ ["..".toList, ".%2e".toList, "%2e.".toList, "%2e%2e".toList]

/-- The segments that a parser keeps, after those it has already. -/
def normalize (S : EncodeSet) : List (List Char) → List (List Char) → List (List Char)
  | kept, [] => kept
  | kept, s :: rest =>
    if isDoubleDot s then
      -- The last segment leaves an empty one, so that the path still ends with a slash.
      normalize S (if rest = [] then kept.dropLast ++ [[]] else kept.dropLast) rest
    else if isSingleDot s then
      normalize S (if rest = [] then kept ++ [[]] else kept) rest
    else normalize S (kept ++ [S.encode s]) rest

/-- The path that is requested for the path of a URL. -/
def parsePath (S : EncodeSet) (path : String) : String :=
  String.ofList (['/'].intercalate ([] :: normalize S [] (path.toList.splitOnP isSeparator).tail))

/-- A path that begins at the root, whose segments are separated by slashes alone and are
no dots. -/
structure Undotted (path : String) : Prop where
  rooted : path.toList.head? = some '/'
  slashes : '\\' ∉ path.toList
  dotless : ∀ s ∈ path.toList.splitOn '/', isSingleDot s = false ∧ isDoubleDot s = false

theorem normalize_of_dotless (S : EncodeSet) {kept segments : List (List Char)}
    (h : ∀ s ∈ segments, isSingleDot s = false ∧ isDoubleDot s = false) :
    normalize S kept segments = kept ++ segments.map S.encode := by
  induction segments generalizing kept with
  | nil => simp [normalize]
  | cons s segments ih =>
    obtain ⟨hsingle, hdouble⟩ := h s List.mem_cons_self
    rw [normalize, if_neg (by simp [hdouble]), if_neg (by simp [hsingle]),
      ih fun t ht => h t (List.mem_cons_of_mem s ht)]
    simp

/-- Without a backslash only a slash ends a segment. -/
theorem splitOnP_separator {cs : List Char} (h : '\\' ∉ cs) :
    cs.splitOnP isSeparator = cs.splitOn '/' := by
  rw [List.splitOn_eq_splitOnP]
  induction cs with
  | nil => rfl
  | cons c cs ih =>
    rw [List.mem_cons, not_or] at h
    have hc : isSeparator c = (c == '/') := by
      have hne : c ≠ '\\' := fun heq => h.1 heq.symm
      rw [isSeparator, decide_eq_false hne, Bool.or_false, beq_eq_decide]
    rw [List.splitOnP_cons_eq_if_modifyHead, List.splitOnP_cons_eq_if_modifyHead, ih h.2, hc]

theorem splitOnP_slash {p : Char → Bool} (hp : p '/' = true) (cs : List Char) :
    ('/' :: cs).splitOnP p = [] :: cs.splitOnP p :=
  List.splitOnP_append_cons_of_forall_mem (fun _ h => absurd h List.not_mem_nil) '/' hp cs

/-- A path from the root without its first slash. -/
theorem exists_rooted {path : String} (h : path.toList.head? = some '/') :
    ∃ rest, path.toList = '/' :: rest := by
  cases hp : path.toList with
  | nil =>
    rw [hp] at h
    cases h
  | cons c rest =>
    rw [hp] at h
    exact ⟨rest, by rw [Option.some.inj h]⟩

theorem not_mem_of_mem_splitOn {a : Char} {cs s : List Char} (h : s ∈ cs.splitOn a) : a ∉ s := by
  induction cs generalizing s with
  | nil =>
    rw [List.splitOn_nil, List.mem_singleton] at h
    rw [h]
    exact List.not_mem_nil
  | cons c cs ih =>
    rw [List.splitOn_cons_eq_if_modifyHead] at h
    split at h
    · rcases List.mem_cons.mp h with rfl | h
      · exact List.not_mem_nil
      · exact ih h
    · rename_i hc
      cases hsplit : cs.splitOn a with
      | nil => exact absurd hsplit (List.splitOn_ne_nil a cs)
      | cons first others =>
        rw [hsplit, List.modifyHead_cons] at h
        rcases List.mem_cons.mp h with rfl | h
        · rw [List.mem_cons, not_or]
          exact ⟨fun heq => hc (by simp [heq]), ih (hsplit ▸ List.mem_cons_self)⟩
        · exact ih (hsplit ▸ List.mem_cons_of_mem first h)

theorem isSeparator_slash : isSeparator '/' = true := by decide

theorem slash_not_mem_encode (S : EncodeSet) {s : List Char} (h : '/' ∉ s) : '/' ∉ S.encode s := by
  have hdigit : ∀ n : Fin 16, hexDigit n ≠ '/' := by decide
  intro hmem
  obtain ⟨c, hc, hmem⟩ := List.mem_flatMap.mp hmem
  unfold EncodeSet.encodeChar at hmem
  split at hmem
  · obtain ⟨b, _, hb⟩ := List.mem_flatMap.mp hmem
    have hlt : b.toNat < 256 := b.toNat_lt
    simp only [encodeByte, List.mem_cons, List.not_mem_nil, or_false] at hb
    rcases hb with hb | hb | hb
    · exact absurd hb (by decide)
    · exact hdigit ⟨b.toNat / 16, by omega⟩ hb.symm
    · exact hdigit ⟨b.toNat % 16, by omega⟩ hb.symm
  · rw [List.mem_singleton] at hmem
    exact h (hmem ▸ hc)

/-- What is requested for a plain path has the same segments, encoded. -/
theorem segments_parsePath (S : EncodeSet) {path : String} (h : Undotted path) :
    (parsePath S path).toList.splitOn '/' = (path.toList.splitOn '/').map S.encode := by
  obtain ⟨rest, hrest⟩ := exists_rooted h.rooted
  have hsplit : path.toList.splitOn '/' = [] :: rest.splitOn '/' := by
    rw [hrest, List.splitOn_eq_splitOnP, List.splitOn_eq_splitOnP]
    exact splitOnP_slash (by decide) rest
  have hdotless := h.dotless
  rw [hsplit] at hdotless
  rw [parsePath, String.toList_ofList, splitOnP_separator h.slashes, hsplit, List.tail_cons,
    normalize_of_dotless S fun s hs => hdotless s (List.mem_cons_of_mem _ hs), List.nil_append]
  refine List.splitOn_intercalate '/' ?_ (List.cons_ne_nil _ _)
  intro s hs
  rcases List.mem_cons.mp hs with rfl | hs
  · exact List.not_mem_nil
  · obtain ⟨t, ht, rfl⟩ := List.mem_map.mp hs
    exact slash_not_mem_encode S (not_mem_of_mem_splitOn ht)

/-- A segment that `..` takes back leaves nothing. -/
theorem parsePath_up (S : EncodeSet) {segment path : String}
    (hsegment : ∀ c ∈ segment.toList, isSeparator c = false)
    (hdots : isSingleDot segment.toList = false ∧ isDoubleDot segment.toList = false)
    (hpath : path.toList.head? = some '/') :
    parsePath S ("/" ++ segment ++ "/.." ++ path) = parsePath S path := by
  obtain ⟨rest, hrest⟩ := exists_rooted hpath
  have hup : ("/" ++ segment ++ "/.." ++ path).toList =
      '/' :: (segment.toList ++ '/' :: (['.', '.'] ++ '/' :: rest)) := by
    simp [hrest]
  have hstep : normalize S [] (segment.toList :: ['.', '.'] :: rest.splitOnP isSeparator) =
      normalize S [] (rest.splitOnP isSeparator) := by
    rw [normalize, if_neg (by simp [hdots.2]), if_neg (by simp [hdots.1]), normalize,
      if_pos (by decide), if_neg (List.splitOnP_ne_nil _ _)]
    rfl
  have hseparator : ∀ c ∈ ['.', '.'], isSeparator c = false := by simp [isSeparator]
  rw [parsePath, parsePath, hup, hrest, splitOnP_slash isSeparator_slash,
    splitOnP_slash isSeparator_slash, List.tail_cons, List.tail_cons,
    List.splitOnP_append_cons_of_forall_mem hsegment '/' isSeparator_slash,
    List.splitOnP_append_cons_of_forall_mem hseparator '/' isSeparator_slash, hstep]

end KrabkaRegistry.Library.UrlPath
